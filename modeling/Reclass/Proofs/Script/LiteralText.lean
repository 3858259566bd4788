import Reclass.Proofs.Script.Quoted
import Reclass.Proofs.Script.Tiling

/-!
# Texts written as literals

Every text can be written as a literal, in each of the three ways to quote. The characters that mean
something between the quotes are written with a backslash, and what a backslash means when the
literal is read is what it was written for. So a literal that was written is one token, and it
stands for the text that it was written for.
-/

namespace Reclass

open Text Script

namespace Text

namespace Quote

variable (q : Quote)

/-- The kind of token that a literal is. -/
def kind : Quote → TokenKind
  | .single | .double => .str
  | .back => .template

/-- A character is written as a pair that stands for it, or as itself if it means nothing else
between the quotes. -/
theorem escapeChar_cases (c : Char) :
    (∃ d, q.escapeChar c = ['\\', d] ∧ escapeValue d = [c]) ∨
      q.escapeChar c = [c] ∧ c ≠ q.char ∧ c ≠ '\\' ∧ c ≠ '\n' ∧ (q = .back → c ≠ '\x7b') := by
  unfold escapeChar
  split_ifs with hfeed htab hreturn hescaped
  · exact .inl ⟨'n', rfl, hfeed ▸ rfl⟩
  · exact .inl ⟨'t', rfl, htab ▸ rfl⟩
  · exact .inl ⟨'r', rfl, hreturn ▸ rfl⟩
  · refine .inl ⟨c, rfl, ?_⟩
    rcases hescaped with rfl | rfl | ⟨_, rfl⟩
    · rfl
    · cases q <;> rfl
    · rfl
  · push Not at hescaped
    exact .inr ⟨rfl, hescaped.2.1, hescaped.1, hfeed, hescaped.2.2⟩

/-- A text is escaped character by character. -/
theorem escape_cons (c : Char) (s : List Char) :
    q.escape (c :: s) = q.escapeChar c ++ q.escape s :=
  List.flatMap_cons

/-- Reading what was written gives the text back. -/
theorem unescape_escape (s : List Char) : unescape (q.escape s) = s := by
  induction s with
  | nil => rfl
  | cons c s ih =>
    rw [escape_cons]
    rcases q.escapeChar_cases c with ⟨d, hpair, hvalue⟩ | ⟨hself, _, hescape, _⟩
    · rw [hpair, List.cons_append, List.singleton_append, unescape_pair, hvalue, ih]
      rfl
    · rw [hself, List.singleton_append, unescape_cons hescape, ih]

/-- A text is written so that it can stand between its quotes. -/
theorem quoted_escape (s : List Char) : Quoted q.char (q.escape s) := by
  induction s with
  | nil => exact .nil
  | cons c s ih =>
    rw [escape_cons]
    rcases q.escapeChar_cases c with ⟨d, hpair, _⟩ | ⟨hself, hquote, hescape, hfeed, _⟩
    · rw [hpair]
      exact .escaped d ih
    · rw [hself]
      exact .plain hquote hescape hfeed ih

/-! ### Between back quotes -/

/-- Between back quotes no written text starts with a brace. -/
theorem head?_escape_back (s rest : List Char) (hrest : rest.head? ≠ some '\x7b') :
    (Quote.back.escape s ++ rest).head? ≠ some '\x7b' := by
  cases s with
  | nil => exact hrest
  | cons c s =>
    rw [escape_cons]
    rcases Quote.back.escapeChar_cases c with ⟨d, hpair, _⟩ | ⟨hself, _, _, _, hbrace⟩
    · simp [hpair]
    · simpa [hself] using hbrace rfl

/-- Between back quotes a written text opens no substitution. -/
theorem not_isInfix_escape_back (s : List Char) :
    ¬['$', '\x7b'] <:+: Quote.back.escape s ++ ['\x60'] := by
  induction s with
  | nil => decide
  | cons c s ih =>
    have hhead := head?_escape_back s ['\x60'] (by decide)
    have hfirst (d : Char) : ¬['$', '\x7b'] <:+: d :: (Quote.back.escape s ++ ['\x60']) := by
      rw [List.infix_cons_iff]
      rintro (⟨t, ht⟩ | hinfix)
      · exact hhead (by rw [← (List.cons.inj ht).2]; rfl)
      · exact ih hinfix
    rw [escape_cons, List.append_assoc]
    rcases Quote.back.escapeChar_cases c with ⟨d, hpair, _⟩ | ⟨hself, _⟩
    · rw [hpair, List.cons_append, List.singleton_append, List.infix_cons_iff]
      rintro (⟨t, ht⟩ | hinfix)
      · exact absurd (List.cons.inj ht).1 (by decide)
      · exact hfirst d hinfix
    · rw [hself, List.singleton_append]
      exact hfirst c

/-- A text between back quotes is read up to the second one. -/
theorem template?_escape_back (s rest : List Char) :
    template? (Quote.back.escape s ++ '\x60' :: rest) =
      some (Quote.back.escape s ++ ['\x60'], rest) := by
  induction s with
  | nil => exact template?_quote rest
  | cons c s ih =>
    rw [escape_cons, List.append_assoc]
    rcases Quote.back.escapeChar_cases c with ⟨d, hpair, _⟩ | ⟨hself, hquote, hescape, _⟩
    · rw [hpair, List.cons_append, List.singleton_append, template?_escaped, ih]
      simp
    · have hhead := head?_escape_back s ('\x60' :: rest) (by simp)
      rw [hself, List.singleton_append, template?_plain hquote hescape fun _ => hhead, ih]
      simp

/-! ### Literals -/

/-- A written text is read as one token up to its end. -/
theorem lexemeRead_written (s : List Char) :
    LexemeRead true (q.written s) ⟨q.kind, q.written s⟩ [] := by
  have hstring (quote : Char) (hquote : quote = '"' ∨ quote = '\'') (hchar : q.char = quote) :
      LexemeRead true (quote :: (q.escape s ++ [quote])) ⟨.str, quote :: (q.escape s ++ [quote])⟩
        [] :=
    .str hquote ((hchar ▸ q.quoted_escape s).stringTail_eq hquote [])
  cases q with
  | single => exact hstring '\'' (.inr rfl) rfl
  | double => exact hstring '"' (.inl rfl) rfl
  | back => exact .template (template?_escape_back s [])

/-- What stands between the quotes of a written text. -/
theorem inside_written (s : List Char) : ((q.written s).drop 1).dropLast = q.escape s := by
  rw [written, List.drop_one, List.tail_cons, List.dropLast_concat]

/-- A token that is a written text stands for the text. -/
theorem textValue?_written {s : List Char} {t : Token} (hkind : t.kind = q.kind)
    (htext : t.text = q.written s) : t.textValue? = some (String.ofList s) := by
  have hvalue : unescape t.inside = s := by
    rw [Token.inside, htext, inside_written, unescape_escape]
  cases q with
  | single => rw [Token.textValue?, hkind, kind, hvalue]
  | double => rw [Token.textValue?, hkind, kind, hvalue]
  | back =>
    have hclosed : occursIn ['$', '\x7b'] t.text = false := by
      rw [Bool.eq_false_iff, ne_eq, occursIn_iff, htext, written, List.infix_cons_iff, not_or]
      refine ⟨?_, not_isInfix_escape_back s⟩
      rintro ⟨u, hu⟩
      exact absurd (List.cons.inj hu).1 (by decide)
    simp only [Token.textValue?, hkind, kind, hclosed, hvalue, Bool.false_eq_true, if_false]

end Quote

end Text

namespace Script

/-- Every text, written as a literal in any of the three ways, is one token that goes from the first
quote to the last, and the token stands for the text. -/
theorem written_text_reads_back (q : Quote) (s : String) :
    ∃ t, tokenize (String.ofList (q.written s.toList)) = .ok [t] ∧ t.kind = q.kind ∧
      Spans (String.ofList (q.written s.toList)) t ∧ t.textValue? = some s := by
  have hlist : (String.ofList (q.written s.toList)).toList = q.written s.toList :=
    String.toList_ofList
  have hread := q.lexemeRead_written s.toList
  have hchar : q.char ≠ '\ufeff' ∧ q.char ≠ '#' ∧ isSpace q.char = false ∧ q.char ≠ '/' := by
    cases q <;> decide
  obtain ⟨hmark, hhash, hspace, hslash⟩ := hchar
  have hlead : lead (q.written s.toList) = ([], q.written s.toList) := lead_cons hmark hhash
  have hgap : separator? (q.written s.toList) = none :=
    separator?_eq_none _ hspace fun h => absurd h hslash
  rw [← hlist] at hlead hgap hread
  obtain ⟨t, htokens, hlexeme, hspans⟩ := exists_spans_of_read hlead hgap hread
  have hkind : t.kind = q.kind := congrArg Lexeme.kind hlexeme
  refine ⟨t, htokens, hkind, hspans, ?_⟩
  rw [q.textValue?_written hkind (hspans.2.2.trans hlist), String.ofList_toList]

/-- A dollar sign before a brace is kept apart from it between back quotes. -/
example : Quote.back.written ['$', '\x7b', '\x60', '\n'] =
    "\x60$\\\x7b\\\x60\\n\x60".toList := by
  decide

end Script

end Reclass
