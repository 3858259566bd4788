import Reclass.Proofs.Script.Shift

/-!
# Tokens tile a script

A script is a lead, then by turns gaps and tokens, and nothing else: every token is a piece of the
text at its place, the tokens stand in order, and between them there is only white space and
comments. So no character of the code is left out, and none is read twice.
-/

namespace Reclass

namespace Script

/-! ### What stands between tokens -/

/-- White space of a script: five characters of ASCII, and beyond ASCII the white space of Unicode
and the byte order mark. -/
def IsBlank (c : Char) : Prop :=
  c ∈ [' ', '\t', '\n', '\r', '\x0c'] ∨
    0x80 ≤ c.toNat ∧ (Text.isWhiteSpace c = true ∨ c = '\ufeff')

/-- That a text at which a line has been broken off is at the end of that line. -/
def AtLineEnd (s : List Char) : Prop := s = [] ∨ s.head? = some '\n'

/-- That a text before another one is white space and complete comments. A block comment ends at the
first `*/` behind its start, a line comment at the end of its line. -/
inductive IsGap : List Char → List Char → Prop
  | nil (after : List Char) : IsGap [] after
  | blank {c : Char} {gap after : List Char} (hc : IsBlank c) (hgap : IsGap gap after) :
      IsGap (c :: gap) after
  | block {comment gap after : List Char} (hfirst : ¬['*', '/'] <:+: comment ++ ['*'])
      (hgap : IsGap gap after) : IsGap ('/' :: '*' :: (comment ++ '*' :: '/' :: gap)) after
  | line {comment gap after : List Char} (hline : '\n' ∉ comment)
      (hend : AtLineEnd (gap ++ after)) (hgap : IsGap gap after) :
      IsGap ('/' :: '/' :: (comment ++ gap)) after

/-- That a text before another one is what only the start of a script may hold: a byte order mark,
or none, and then a line that starts with `#!`, or none. -/
def IsLead (lead after : List Char) : Prop :=
  ∃ mark line, lead = mark ++ line ∧ (mark = [] ∨ mark = ['\ufeff']) ∧
    (line = [] ∨ ∃ text, line = '#' :: '!' :: text ∧ '\n' ∉ text ∧ AtLineEnd after)

/-- That some tokens tile a text that starts at a byte offset: each stands behind its gap, where its
place says, and is not empty, and behind the last one there is only a gap. -/
inductive Tiles : Nat → List Char → List Token → Prop
  | last {gap : List Char} (offset : Nat) (hgap : IsGap gap []) : Tiles offset gap []
  | token {offset : Nat} {rest : List Char} {t : Token} {tokens : List Token}
      (hgap : IsGap t.gap (t.text ++ rest)) (hne : t.text ≠ [])
      (hplace : t.start = offset + Text.byteLength t.gap) (htail : Tiles t.stop rest tokens) :
      Tiles offset (t.gap ++ (t.text ++ rest)) (t :: tokens)

/-- The spaces of the reader are the white space of scripts. -/
theorem isSpace_iff {c : Char} : isSpace c = true ↔ IsBlank c := by
  by_cases hascii : c.toNat < 0x80
  · have hbyte : ¬0x80 ≤ c.toNat := by omega
    simp [isSpace, IsBlank, hascii, hbyte, or_assoc]
  · have hbyte : 0x80 ≤ c.toNat := by omega
    have hlist : c ∉ [' ', '\t', '\n', '\r', '\x0c'] := by
      intro hc
      apply hascii
      simp only [List.mem_cons, List.not_mem_nil, or_false] at hc
      rcases hc with rfl | rfl | rfl | rfl | rfl <;> decide
    simp [isSpace, IsBlank, hascii, hbyte, hlist, or_comm]

/-- A block comment is cut behind the first `*/`. -/
private theorem commentTail_eq_some {s text rest : List Char}
    (h : commentTail s = some (text, rest)) :
    ∃ comment, text = comment ++ ['*', '/'] ∧ ¬['*', '/'] <:+: comment ++ ['*'] := by
  induction s using commentTail.induct generalizing text rest with
  | case1 => simp [commentTail] at h
  | case2 s =>
    cases h
    refine ⟨[], rfl, fun hinfix => ?_⟩
    have hlength := hinfix.length_le
    simp at hlength
  | case3 c s hs ih =>
    rw [commentTail.eq_3 _ _ hs] at h
    obtain ⟨⟨tail, after⟩, htail, heq⟩ := Option.map_eq_some_iff.mp h
    cases heq
    obtain ⟨comment, rfl, hfirst⟩ := ih htail
    refine ⟨c :: comment, rfl, fun hinfix => ?_⟩
    rw [List.cons_append, List.infix_cons_iff] at hinfix
    rcases hinfix with hprefix | hinfix
    · obtain ⟨u, hu⟩ := hprefix
      -- a star and a slash at the start would have been read as the end of the comment
      obtain ⟨hc, hslash⟩ := List.cons.inj hu
      cases comment with
      | nil => exact absurd (List.cons.inj hslash).1 (by decide)
      | cons d comment =>
        have hd : d = '/' := (List.cons.inj hslash).1.symm
        refine hs (comment ++ ['*', '/'] ++ rest) hc.symm ?_
        rw [commentTail_append htail, hd]
        simp
    · exact hfirst hinfix

/-- What is skipped before a token is a gap. -/
theorem isGap_gap (s : List Char) : IsGap (gap s).1 (gap s).2 := by
  induction hn : s.length using Nat.strongRecOn generalizing s with
  | ind n ih =>
    subst hn
    cases hsep : separator? s with
    | none =>
      rw [gap_of_separator?_eq_none hsep]
      exact .nil s
    | some cut =>
      obtain ⟨text, rest⟩ := cut
      have htail := ih _ (separator?_length hsep) rest rfl
      rw [gap_of_separator?_eq_some hsep]
      cases separator?_eq_some_iff.mp hsep with
      | space hc => exact .blank (isSpace_iff.mp hc) htail
      | line s =>
        refine .line (notMem_takeWhile_line s) ?_ htail
        rw [gap_append]
        exact dropWhile_line s
      | block h =>
        obtain ⟨comment, rfl, hfirst⟩ := commentTail_eq_some h
        have hgap := IsGap.block hfirst htail
        simpa using hgap

/-- What is cut off at the start of a script is a lead. -/
theorem isLead_lead (s : List Char) : IsLead (lead s).1 (lead s).2 := by
  unfold lead
  split
  next mark after hpair =>
    have hmark : mark = [] ∨ mark = ['\ufeff'] := by
      split at hpair <;> cases hpair <;> simp
    split
    · next s =>
      refine ⟨mark, _, rfl, hmark, .inr ⟨s.takeWhile (· != '\n'), ?_, notMem_takeWhile_line s, ?_⟩⟩
      · simp
      · exact dropWhile_line _
    · exact ⟨mark, [], (List.append_nil mark).symm, hmark, .inl rfl⟩

/-! ### Tiles -/

/-- Tokens that are read one after the other at their places, up to the end, are tiles. -/
theorem ReadsTokens.tiles {slash slash' : Bool} {offset : Nat} {s rest : List Char}
    {tokens : List Token} (h : ReadsTokens slash s tokens slash' rest)
    (hplaced : PlacedFrom offset tokens) (hend : (gap rest).2 = []) : Tiles offset s tokens := by
  induction h generalizing offset with
  | nil slash s =>
    have hgap := isGap_gap s
    have hs := gap_append s
    rw [hend] at hgap hs
    rw [List.append_nil] at hs
    exact hs ▸ .last offset hgap
  | @cons _ _ s _ mid _ t _ hgap hread _ ih =>
    obtain ⟨hafter, hne⟩ := hread.append
    have hskipped := isGap_gap s
    have hs := gap_append s
    rw [hgap, hafter] at hskipped hs
    exact hs ▸ .token hskipped hne hplaced.1 (ih hplaced.2 hend)

namespace Tiles

variable {offset : Nat} {s : List Char} {tokens : List Token}

/-- A tile is a piece of the text at its place. -/
theorem piece (h : Tiles offset s tokens) {t : Token} (ht : t ∈ tokens) :
    t.text ≠ [] ∧ ∃ before after, s = before ++ (t.text ++ after) ∧
      t.start = offset + Text.byteLength before := by
  induction h with
  | last => simp at ht
  | @token offset rest u tokens _ hne hplace _ ih =>
    rcases List.mem_cons.mp ht with rfl | ht
    · exact ⟨hne, _, rest, rfl, hplace⟩
    · obtain ⟨hne', before, after, rfl, hstart⟩ := ih ht
      refine ⟨hne', u.gap ++ (u.text ++ before), after, by simp, ?_⟩
      rw [hstart, Token.stop, hplace]
      simp only [Text.byteLength_append]
      omega

/-- Tiles stand in order, and no two of them share a place. -/
theorem pairwise (h : Tiles offset s tokens) : tokens.Pairwise fun t u => t.stop ≤ u.start := by
  induction h with
  | last => exact .nil
  | token _ _ _ htail ih =>
    refine .cons (fun u hu => ?_) ih
    obtain ⟨_, _, _, _, hstart⟩ := htail.piece hu
    omega

/-- Behind some tiles there are tiles again. -/
theorem of_append {first rest : List Token} (h : Tiles offset s (first ++ rest)) :
    ∃ before after, s = before ++ after ∧ Tiles (offset + Text.byteLength before) after rest := by
  induction first generalizing offset s with
  | nil => exact ⟨[], s, rfl, h⟩
  | cons t first ih =>
    cases h with
    | @token _ behind _ _ _ _ hplace htail =>
      obtain ⟨before, after, rfl, hrest⟩ := ih htail
      refine ⟨t.gap ++ (t.text ++ before), after, by simp, ?_⟩
      rw [Text.byteLength_append, Text.byteLength_append, ← Nat.add_assoc, ← Nat.add_assoc,
        ← hplace]
      exact hrest

/-- The text from the first to the last of some tiles is a piece of the text, without a gap. -/
theorem span {t : Token} {others rest : List Token} (h : Tiles offset s (t :: (others ++ rest))) :
    ∃ after, s = t.gap ++ (Token.span (t :: others) ++ after) ∧
      t.start = offset + Text.byteLength t.gap ∧
      Token.lastStop t others = t.start + Text.byteLength (Token.span (t :: others)) := by
  induction others generalizing offset s t with
  | nil =>
    cases h with
    | @token _ after _ _ _ _ hplace _ =>
      exact ⟨after, by simp [Token.span], hplace, by simp [Token.lastStop, Token.stop, Token.span]⟩
  | cons u others ih =>
    cases h with
    | token _ _ hplace htail =>
      obtain ⟨after, rfl, hstart, hstop⟩ := ih htail
      have hspan : Token.span (t :: u :: others) =
          t.text ++ (u.gap ++ Token.span (u :: others)) := by
        simp [Token.span]
      have hlast : Token.lastStop t (u :: others) = Token.lastStop u others := by
        simp [Token.lastStop, List.getLast?_cons]
      refine ⟨after, by simp [hspan], hplace, ?_⟩
      rw [hlast, hstop, hstart, hspan, Text.byteLength_append, Text.byteLength_append, Token.stop]
      omega

end Tiles

/-- The tokens of a script that is accepted tile it: behind the lead there is nothing but gaps and
tokens by turns. Every token has a first and a last character, is the piece of the script at its
place, and ends where the next one starts or before. -/
theorem tokens_tile_source {source : String} {tokens : List Token}
    (h : tokenize source = .ok tokens) :
    (∃ lead rest, source.toList = lead ++ rest ∧ IsLead lead rest ∧
        Tiles (Text.byteLength lead) rest tokens) ∧
      (∀ t ∈ tokens, t.start < t.stop ∧ ∃ before after,
        source.toList = before ++ (t.text ++ after) ∧ Text.byteLength before = t.start) ∧
      tokens.Pairwise fun t u => t.stop ≤ u.start := by
  obtain ⟨_, _, hreads, hend⟩ := readsTokens_of_tokens h
  have htiles : Tiles (Text.byteLength (lead source.toList).1) (lead source.toList).2 tokens :=
    hreads.tiles (placedFrom_tokens h) hend
  have hsource := lead_append source.toList
  refine ⟨⟨_, _, hsource.symm, isLead_lead source.toList, htiles⟩, fun t ht => ?_,
    htiles.pairwise⟩
  obtain ⟨hne, before, after, hrest, hstart⟩ := htiles.piece ht
  constructor
  · have hpos := Text.byteLength_pos hne
    rw [Token.stop]
    omega
  · refine ⟨(lead source.toList).1 ++ before, after, ?_, ?_⟩
    · rw [List.append_assoc, ← hrest, hsource]
    · rw [Text.byteLength_append, hstart]

/-- A byte order mark, a first line, a comment with stars in it, a name, a sign, a template with
braces of its own and an escaped character of two bytes, and a comment up to the end. -/
theorem tokens_tile_source_of_template :
    ∃ source tokens, source = "\ufeff#!n\n/* ** */x =\x60$\x7b'\x7d'\x7d\\é\x60//y" ∧
      tokenize source = .ok tokens ∧
      tokens.map (fun t => (t.start, t.stop)) = [(15, 16), (17, 18), (18, 29)] ∧
      (∃ lead rest, source.toList = lead ++ rest ∧ IsLead lead rest ∧
        Tiles (Text.byteLength lead) rest tokens) ∧
      tokens.Pairwise fun t u => t.stop ≤ u.start := by
  have h : tokenize "\ufeff#!n\n/* ** */x =\x60$\x7b'\x7d'\x7d\\é\x60//y" = .ok
      [⟨.ident, "\n/* ** */".toList, 15, ['x']⟩, ⟨.punct, [' '], 17, ['=']⟩,
        ⟨.template, [], 18, "\x60$\x7b'\x7d'\x7d\\é\x60".toList⟩] := by
    decide +kernel
  obtain ⟨htiles, _, hpairwise⟩ := tokens_tile_source h
  exact ⟨_, _, rfl, h, by decide, htiles, hpairwise⟩

/-! ### Runs of tokens in a script -/

/-- That a text is the part of a script between two byte offsets. -/
def IsSlice (source : String) (start stop : Nat) (text : List Char) : Prop :=
  ∃ before after, source.toList = before ++ (text ++ after) ∧ Text.byteLength before = start ∧
    start + Text.byteLength text = stop

/-- The text of neighbouring tokens is what the script has from the first to the last of them. -/
theorem isSlice_span {source : String} {tokens others : List Token} {t : Token}
    (h : tokenize source = .ok tokens) (hrun : t :: others <:+: tokens) :
    IsSlice source t.start (Token.lastStop t others) (Token.span (t :: others)) := by
  obtain ⟨before, after, rfl⟩ := hrun
  obtain ⟨_, _, hreads, hend⟩ := readsTokens_of_tokens h
  have htiles : Tiles (Text.byteLength (lead source.toList).1) (lead source.toList).2 _ :=
    hreads.tiles (placedFrom_tokens h) hend
  rw [List.append_assoc, List.cons_append] at htiles
  obtain ⟨skipped, behind, hskipped, hbehind⟩ := htiles.of_append
  obtain ⟨rest, hrest, hstart, hstop⟩ := hbehind.span
  refine ⟨(lead source.toList).1 ++ (skipped ++ t.gap), rest, ?_, ?_, hstop.symm⟩
  · have hsource := lead_append source.toList
    rw [hskipped, hrest] at hsource
    simpa using hsource.symm
  · rw [hstart, Text.byteLength_append, Text.byteLength_append, Nat.add_assoc]

/-! ### Scripts of one token -/

/-- That a token goes from the first character of a script to the last one. -/
def Spans (source : String) (t : Token) : Prop :=
  t.start = 0 ∧ t.stop = Text.byteLength source.toList ∧ t.text = source.toList

/-- A script that is the text of the only token read from it is this token. -/
theorem exists_spans_of_lexemes? {source : String} {token : Lexeme}
    (hlead : lead source.toList = ([], source.toList))
    (hlexemes : lexemes? true source.toList = some [token]) (htext : token.text = source.toList) :
    ∃ t, tokenize source = .ok [t] ∧ t.lexeme = token ∧ Spans source t := by
  obtain ⟨tokens, htokens, hmap⟩ := tokenize_of_lexemes? hlead hlexemes
  obtain ⟨t, rfl, rfl⟩ := List.map_eq_singleton_iff.mp hmap
  have htext : t.text = source.toList := htext
  obtain ⟨before, after, hsource, hstart, -⟩ := isSlice_span htokens (List.infix_refl [t])
  rw [Token.span_cons, Token.run_nil, List.append_nil, htext] at hsource
  have hbefore : before = [] := by
    have hlength := congrArg List.length hsource
    rw [List.length_append, List.length_append] at hlength
    exact List.length_eq_zero_iff.mp (by omega)
  rw [hbefore] at hstart
  refine ⟨t, htokens, rfl, hstart.symm, ?_, htext⟩
  rw [Token.stop, ← hstart, htext]
  exact Nat.zero_add _

/-- A script that is read as one token up to its end is this token. -/
theorem exists_spans_of_read {source : String} {token : Lexeme}
    (hlead : lead source.toList = ([], source.toList)) (hgap : separator? source.toList = none)
    (hread : LexemeRead true source.toList token []) :
    ∃ t, tokenize source = .ok [t] ∧ t.lexeme = token ∧ Spans source t := by
  have hnil : lexemes? token.slash [] = some [] :=
    lexemes?_of_gap_eq_nil (by rw [gap_of_separator?_eq_none rfl])
  have hlexemes : lexemes? true source.toList = some [token] := by
    rw [lexemes?_of_read (by rw [gap_of_separator?_eq_none hgap]) hread, hnil]
    rfl
  have htext : source.toList = token.text ++ [] := hread.append.1
  rw [List.append_nil] at htext
  exact exists_spans_of_lexemes? hlead hlexemes htext.symm

end Script

end Reclass
