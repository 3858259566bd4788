import Reclass.Proofs.Script.Tiling

/-!
# Spaces beyond ASCII

Unicode has white space beyond ASCII, and a byte order mark may stand anywhere. These characters
separate tokens as a blank does, in front of a name as well as behind it. The flags of a regular
expression are the one exception: they are read like a name without quotes, for which every
character beyond ASCII is good, and so they run on through such a space.
-/

namespace Reclass

namespace Script

/-- White space beyond ASCII: that of Unicode, and the byte order mark. -/
def IsWideSpace (c : Char) : Prop :=
  0x80 ≤ c.toNat ∧ (Text.isWhiteSpace c = true ∨ c = '\ufeff')

instance : DecidablePred IsWideSpace := fun _ => inferInstanceAs (Decidable (_ ∧ _))

/-- White space beyond ASCII separates tokens. -/
theorem IsWideSpace.isSpace {c : Char} (h : IsWideSpace c) : isSpace c = true :=
  isSpace_iff.mpr (.inr h)

/-- Beyond ASCII every character is good for a name. -/
theorem IsWideSpace.isNamePart {c : Char} (h : IsWideSpace c) : isNamePart c = true := by
  simp only [Script.isNamePart, isNameStart, Bool.or_eq_true, decide_eq_true_eq]
  exact .inl (.inr h.1)

/-- No name goes on with white space beyond ASCII. -/
theorem not_isWideSpace_of_continuesName {c : Char} (h : continuesName c = true) :
    ¬IsWideSpace c := by
  intro hwide
  have hspace := hwide.isSpace
  rw [isSpace_of_continuesName h] at hspace
  exact Bool.noConfusion hspace

/-- What is good for a name but ends a name token is a space beyond ASCII. -/
theorem isWideSpace_of_isNamePart {c : Char} (hpart : isNamePart c = true)
    (hends : continuesName c = false) : IsWideSpace c := by
  unfold continuesName at hends
  split at hends
  · rw [hpart] at hends
    exact Bool.noConfusion hends
  · next hascii =>
    rcases isSpace_iff.mp (by simpa using hends) with hlist | hwide
    · simp only [List.mem_cons, List.not_mem_nil, or_false] at hlist
      rcases hlist with rfl | rfl | rfl | rfl | rfl <;> exact absurd (by decide) hascii
    · exact hwide

/-- Characters of ASCII are no spaces beyond it. -/
theorem not_isWideSpace_of_lt {c : Char} (h : c.toNat < 0x80) : ¬IsWideSpace c := by
  intro hwide
  have hbyte := hwide.1
  omega

/-! ### Regular expressions -/

/-- Whether a place in a regular expression is inside square brackets, behind a character. -/
def classAfter (inClass : Bool) (c : Char) : Bool :=
  if c = '[' then true else if c = ']' then false else inClass

/-- That a text can stand before the slash that closes a regular expression. The first argument says
whether the text starts inside square brackets, where a slash closes nothing. -/
inductive RegexBody : Bool → List Char → Prop
  | nil : RegexBody false []
  | escaped {inClass : Bool} {s : List Char} (c : Char) (hs : RegexBody inClass s) :
      RegexBody inClass ('\\' :: c :: s)
  | plain {inClass : Bool} {c : Char} {s : List Char} (hescape : c ≠ '\\') (hfeed : c ≠ '\n')
      (hslash : c = '/' → inClass = true) (hs : RegexBody (classAfter inClass c) s) :
      RegexBody inClass (c :: s)

/-- The slash that closes a regular expression is the first one that can. -/
theorem RegexBody.unique {inClass : Bool} {body body' s s' : List Char}
    (h : RegexBody inClass body) (h' : RegexBody inClass body')
    (heq : body ++ '/' :: s = body' ++ '/' :: s') : body = body' ∧ s = s' := by
  induction h generalizing body' with
  | nil =>
    cases h' with
    | nil => exact ⟨rfl, (List.cons.inj heq).2⟩
    | escaped => exact absurd (List.cons.inj heq).1 (by decide)
    | plain _ _ hslash => exact absurd (hslash (List.cons.inj heq).1.symm) (by decide)
  | escaped c hs ih =>
    cases h' with
    | nil => exact absurd (List.cons.inj heq).1 (by decide)
    | escaped c' hs' =>
      obtain ⟨rfl, htail⟩ := List.cons.inj (List.cons.inj heq).2
      obtain ⟨rfl, rfl⟩ := ih hs' htail
      exact ⟨rfl, rfl⟩
    | plain hescape => exact absurd (List.cons.inj heq).1.symm hescape
  | plain hescape hfeed hslash hs ih =>
    cases h' with
    | nil => exact absurd (hslash (List.cons.inj heq).1) (by decide)
    | escaped => exact absurd (List.cons.inj heq).1 hescape
    | plain _ _ _ hs' =>
      obtain ⟨rfl, htail⟩ := List.cons.inj heq
      obtain ⟨rfl, rfl⟩ := ih hs' htail
      exact ⟨rfl, rfl⟩

/-- A regular expression behind its opening slash: a body, a slash, and all the characters that are
good for a name. -/
theorem regexTail_eq_ok {inClass : Bool} {s text rest : List Char}
    (h : regexTail inClass s = .ok (text, rest)) :
    ∃ body behind, RegexBody inClass body ∧ s = body ++ '/' :: behind ∧
      text = body ++ '/' :: behind.takeWhile isNamePart ∧ rest = behind.dropWhile isNamePart := by
  fun_induction regexTail inClass s generalizing text rest with
  | case1 => exact absurd h (by simp)
  | case2 => exact absurd h (by simp)
  | case3 => exact absurd h (by simp)
  | case4 inClass c s ih =>
    obtain ⟨⟨tail, after⟩, htail, hread⟩ := Except.map_eq_ok_iff.mp h
    obtain ⟨body, behind, hbody, rfl, rfl, rfl⟩ := ih htail
    cases hread
    exact ⟨'\\' :: c :: body, behind, .escaped c hbody, rfl, rfl, rfl⟩
  | case5 inClass c s hfeed hlone hpair hclose =>
    obtain ⟨rfl, rfl⟩ := hclose
    cases h
    exact ⟨[], s, .nil, rfl, rfl, rfl⟩
  | case6 inClass c s hfeed hlone hpair hclose inClass' =>
    rename_i ih
    obtain ⟨⟨tail, after⟩, htail, hread⟩ := Except.map_eq_ok_iff.mp h
    obtain ⟨body, behind, hbody, rfl, rfl, rfl⟩ := ih htail
    cases hread
    have hslash : c = '/' → inClass = true := fun hc => by
      simpa using fun hclass => hclose ⟨hc, hclass⟩
    exact ⟨c :: body, behind, .plain (ne_backslash hlone hpair) hfeed hslash hbody, rfl, rfl, rfl⟩

/-- Flags run on through a space beyond ASCII exactly when it ends the word they start with. -/
theorem exists_isWideSpace_takeWhile_iff (s : List Char) :
    (∃ c ∈ s.takeWhile isNamePart, IsWideSpace c) ↔
      ∃ word space rest, (∀ c ∈ word, continuesName c = true) ∧ IsWideSpace space ∧
        s = word ++ space :: rest := by
  constructor
  · rintro ⟨c, hc, hwide⟩
    induction s with
    | nil => simp at hc
    | cons d s ih =>
      cases hd : continuesName d with
      | false =>
        have hpart : isNamePart d = true := by
          by_contra hpart
          simp [hpart] at hc
        exact ⟨[], d, s, by simp, isWideSpace_of_isNamePart hpart hd, rfl⟩
      | true =>
        rw [List.takeWhile_cons_of_pos (isNamePart_of_continuesName hd), List.mem_cons] at hc
        obtain rfl | hc := hc
        · exact absurd hwide (not_isWideSpace_of_continuesName hd)
        · obtain ⟨word, space, rest, hword, hspace, rfl⟩ := ih hc
          exact ⟨d :: word, space, rest, List.forall_mem_cons.mpr ⟨hd, hword⟩, hspace, rfl⟩
  · rintro ⟨word, space, rest, hword, hspace, rfl⟩
    have hparts : ∀ c ∈ word, isNamePart c = true := fun c hc =>
      isNamePart_of_continuesName (hword c hc)
    refine ⟨space, ?_, hspace⟩
    rw [List.takeWhile_append_of_pos hparts, List.takeWhile_cons_of_pos hspace.isNamePart]
    simp

/-! ### Tokens without spaces -/

/-- That a token is a regular expression with these flags behind the slash that closes it. -/
def HasFlags (t : Token) (flags : List Char) : Prop :=
  t.kind = .regex ∧ ∃ body, RegexBody false body ∧ t.text = '/' :: (body ++ '/' :: flags)

/-- That no space beyond ASCII stands in a token, if the token is a name, a number or a sign, and
none in the flags of a regular expression. -/
def KeepsSpacesOut (t : Token) : Prop :=
  (t.kind ∈ [TokenKind.ident, .number, .punct] → ∀ c ∈ t.text, ¬IsWideSpace c) ∧
    ∀ flags, HasFlags t flags → ∀ c ∈ flags, ¬IsWideSpace c

/-- That a text starts with a regular expression of which the flags, if any, are directly followed
by a space beyond ASCII. -/
def RegexMeetsSpace (s : List Char) : Prop :=
  ∃ body word space rest, RegexBody false body ∧ (∀ c ∈ word, continuesName c = true) ∧
    IsWideSpace space ∧ s = '/' :: (body ++ '/' :: (word ++ space :: rest))

/-- That a token of a script is a regular expression that such a space follows in the script. -/
def MeetsSpace (source : String) (t : Token) : Prop :=
  t.kind = .regex ∧ ∃ before after, source.toList = before ++ after ∧
    Text.byteLength before = t.start ∧ RegexMeetsSpace after

/-- The characters of a number are characters of ASCII. -/
private theorem toNat_lt_of_continuesNumber {hex : Bool} {before c : Char}
    (h : continuesNumber hex before c = true) : c.toNat < 0x80 := by
  have hdigit (hc : c.isDigit = true) : c.toNat < 0x80 := by
    have hrange := isDigit_iff.mp hc
    omega
  have halpha (hc : c.isAlpha = true) : c.toNat < 0x80 := by
    have hrange := isAlpha_iff.mp hc
    omega
  simp only [continuesNumber, Char.isAlphanum, Bool.or_eq_true, Bool.and_eq_true, beq_iff_eq] at h
  rcases h with (((hc | hc) | rfl) | rfl) | ⟨⟨rfl | rfl, _⟩, _⟩
  · exact halpha hc
  · exact hdigit hc
  all_goals decide

private theorem toNat_lt_of_mem_numberTail {hex : Bool} {before : Char} {s : List Char} :
    ∀ c ∈ (numberTail hex before s).1, c.toNat < 0x80 := by
  induction s generalizing before with
  | nil => simp [numberTail]
  | cons d s ih =>
    rw [numberTail_cons]
    split
    · next hd => exact List.forall_mem_cons.mpr ⟨toNat_lt_of_continuesNumber hd, ih⟩
    · simp

/-- Names, numbers and signs hold no spaces beyond ASCII. -/
theorem LexemeRead.not_isWideSpace {slash : Bool} {s rest : List Char} {token : Lexeme}
    (h : LexemeRead slash s token rest) (hgap : separator? s = none)
    (hkind : token.kind ∈ [TokenKind.ident, .number, .punct]) :
    ∀ c ∈ token.text, ¬IsWideSpace c := by
  cases h with
  | @number c s hc =>
    refine fun d hd => not_isWideSpace_of_lt ?_
    obtain rfl | hd := List.mem_cons.mp hd
    · rcases hc with hdigit | ⟨rfl, _⟩
      · have hrange := isDigit_iff.mp hdigit
        omega
      · decide
    · exact toNat_lt_of_mem_numberTail d hd
  | @ident c s hc =>
    have hfirst : continuesName c = true :=
      continuesName_of_isNamePart (by simp [isNamePart, hc])
        (not_isSpace_of_separator?_eq_none hgap)
    refine fun d hd => not_isWideSpace_of_continuesName ?_
    obtain rfl | hd := List.mem_cons.mp hd
    · exact hfirst
    · exact List.mem_takeWhile_imp hd
  | @punct c s _ _ _ _ hname =>
    refine fun d hd => not_isWideSpace_of_lt ?_
    have hread := punctuationRead c s
    generalize (punctuation c s).1 = text at hd hread
    generalize (punctuation c s).2 = rest at hread
    cases hread with
    | points =>
      simp only [List.mem_cons, List.not_mem_nil, or_false, or_self] at hd
      subst hd
      decide
    | arrow =>
      simp only [List.mem_cons, List.not_mem_nil, or_false] at hd
      rcases hd with rfl | rfl <;> decide
    | single =>
      obtain rfl := List.mem_singleton.mp hd
      simp only [isNameStart, Bool.or_eq_true, decide_eq_true_eq, not_or] at hname
      omega
  | _ => exact absurd hkind (by simp)

/-- Every token is read at its place. -/
theorem ReadsTokens.exists_read_at {slash slash' : Bool} {offset : Nat} {s rest : List Char}
    {tokens : List Token} {t : Token} (h : ReadsTokens slash s tokens slash' rest)
    (hplaced : PlacedFrom offset tokens) (ht : t ∈ tokens) :
    ∃ slash before after behind, s = before ++ after ∧
      t.start = offset + Text.byteLength before ∧ separator? after = none ∧
      LexemeRead slash after t.lexeme behind := by
  induction h generalizing offset with
  | nil => exact absurd ht (by simp)
  | @cons slash _ s after mid _ u _ hgap hread _ ih =>
    have hs := gap_append s
    have hnone := separator?_gap s
    rw [hgap] at hs hnone
    rcases List.mem_cons.mp ht with rfl | ht
    · exact ⟨slash, t.gap, after, mid, hs.symm, hplaced.1, hnone, hread⟩
    · obtain ⟨slash', before, after', behind, rfl, hstart, hnone', hread'⟩ := ih hplaced.2 ht
      have hafter : after = u.text ++ (before ++ after') := hread.append.1
      refine ⟨slash', u.gap ++ (u.text ++ before), after', behind, ?_, ?_, hnone', hread'⟩
      · rw [← hs, hafter]
        simp
      · rw [hstart, Token.stop, hplaced.1, Text.byteLength_append, Text.byteLength_append]
        omega

/-- Two ways to cut a text at one byte offset are the same. -/
theorem eq_of_byteLength_eq {before before' after after' : List Char}
    (h : before ++ after = before' ++ after')
    (hlength : Text.byteLength before = Text.byteLength before') :
    before = before' ∧ after = after' := by
  have htake := Text.takeBytes?_append before after
  rw [h, hlength, Text.takeBytes?_append] at htake
  obtain rfl := Option.some.inj htake
  exact ⟨rfl, List.append_cancel_left h⟩

section Source

variable {source : String} {tokens : List Token} {t : Token}

/-- Every token of a script is read at its place. -/
theorem exists_read_at_of_mem (h : tokenize source = .ok tokens) (ht : t ∈ tokens) :
    ∃ slash before after behind, source.toList = before ++ after ∧
      Text.byteLength before = t.start ∧ separator? after = none ∧
      LexemeRead slash after t.lexeme behind := by
  obtain ⟨_, _, hreads, _⟩ := readsTokens_of_tokens h
  have hplaced : PlacedFrom (Text.byteLength (lead source.toList).1) tokens := placedFrom_tokens h
  obtain ⟨slash, before, after, behind, hrest, hstart, hnone, hread⟩ :=
    hreads.exists_read_at hplaced ht
  refine ⟨slash, (lead source.toList).1 ++ before, after, behind, ?_, ?_, hnone, hread⟩
  · have hsource := lead_append source.toList
    have hrest : (lead source.toList).2 = before ++ after := hrest
    rw [List.append_assoc, ← hrest, hsource]
  · rw [Text.byteLength_append, hstart]

/-- A regular expression of a script, cut at the slash that closes it: its flags are all that is
good for a name behind that slash. -/
theorem exists_flags_of_mem (h : tokenize source = .ok tokens) (ht : t ∈ tokens)
    (hkind : t.kind = .regex) :
    ∃ before body behind, RegexBody false body ∧
      source.toList = before ++ '/' :: (body ++ '/' :: behind) ∧
      Text.byteLength before = t.start ∧
      t.text = '/' :: (body ++ '/' :: behind.takeWhile isNamePart) := by
  obtain ⟨slash, before, after, behind, hsource, hstart, _, hread⟩ := exists_read_at_of_mem h ht
  generalize htoken : t.lexeme = token at hread
  have htext : t.text = token.text := congrArg Lexeme.text htoken
  have hregex : token.kind = .regex := (congrArg Lexeme.kind htoken).symm.trans hkind
  cases hread with
  | regex _ _ hread =>
    obtain ⟨body, rest, hbody, rfl, rfl, _⟩ := regexTail_eq_ok hread
    exact ⟨before, body, rest, hbody, hsource, hstart, htext⟩
  | _ => exact absurd hregex (by simp)

/-- The flags of a token are given by its text. -/
theorem HasFlags.unique {flags flags' : List Char} (h : HasFlags t flags)
    (h' : HasFlags t flags') : flags = flags' := by
  obtain ⟨_, body, hbody, htext⟩ := h
  obtain ⟨_, body', hbody', htext'⟩ := h'
  exact (hbody.unique hbody' (List.cons.inj (htext.symm.trans htext')).2).2

/-- A token keeps the spaces out exactly when it is no regular expression that one of them
follows. -/
theorem keepsSpacesOut_iff (h : tokenize source = .ok tokens) (ht : t ∈ tokens) :
    KeepsSpacesOut t ↔ ¬MeetsSpace source t := by
  obtain ⟨_, _, _, _, _, _, hnone, hread⟩ := exists_read_at_of_mem h ht
  have hplain : t.kind ∈ [TokenKind.ident, .number, .punct] → ∀ c ∈ t.text, ¬IsWideSpace c :=
    hread.not_isWideSpace hnone
  rw [KeepsSpacesOut, and_iff_right hplain]
  by_cases hkind : t.kind = .regex
  · obtain ⟨before', body, behind, hbody, hsource', hstart', htext⟩ :=
      exists_flags_of_mem h ht hkind
    have hflags : HasFlags t (behind.takeWhile isNamePart) := ⟨hkind, body, hbody, htext⟩
    -- The token has one place in the script and one closing slash, so both sides speak about the
    -- same text behind that slash.
    have hmeets : MeetsSpace source t ↔ ∃ word space rest,
        (∀ c ∈ word, continuesName c = true) ∧ IsWideSpace space ∧
          behind = word ++ space :: rest := by
      constructor
      · rintro ⟨_, before₂, after₂, hsource₂, hstart₂, body₂, word, space, rest, hbody₂, hword,
          hspace, rfl⟩
        rw [hsource'] at hsource₂
        obtain ⟨rfl, hcut⟩ := eq_of_byteLength_eq hsource₂ (hstart'.trans hstart₂.symm)
        obtain ⟨rfl, rfl⟩ := hbody.unique hbody₂ (List.cons.inj hcut).2
        exact ⟨word, space, rest, hword, hspace, rfl⟩
      · rintro ⟨word, space, rest, hword, hspace, rfl⟩
        exact ⟨hkind, _, _, hsource', hstart', body, word, space, rest, hbody, hword, hspace, rfl⟩
    rw [hmeets, ← exists_isWideSpace_takeWhile_iff]
    constructor
    · rintro hout ⟨c, hc, hwide⟩
      exact hout _ hflags c hc hwide
    · intro hout flags hother c hc hwide
      rw [hother.unique hflags] at hc
      exact hout ⟨c, hc, hwide⟩
  · exact iff_of_true (fun flags hflags => absurd hflags.1 hkind) fun hmeets => hkind hmeets.1

/-- Spaces beyond ASCII stand in no name, no number, no sign and no flags of a script exactly when
none of them directly follows a regular expression and its flags. Names, numbers and signs are never
concerned, and the flags of a regular expression are one text. -/
theorem wide_spaces_separate_iff (h : tokenize source = .ok tokens) :
    ((∀ t ∈ tokens, KeepsSpacesOut t) ↔ ∀ t ∈ tokens, ¬MeetsSpace source t) ∧
    (∀ t ∈ tokens, t.kind ≠ .regex → KeepsSpacesOut t) ∧
    ∀ t ∈ tokens, t.kind = .regex → ∃! flags, HasFlags t flags := by
  refine ⟨?_, fun t ht hkind => ?_, fun t ht hkind => ?_⟩
  · exact forall₂_congr fun t ht => keepsSpacesOut_iff h ht
  · exact (keepsSpacesOut_iff h ht).mpr fun hmeets => hkind hmeets.1
  · obtain ⟨_, body, behind, hbody, _, _, htext⟩ := exists_flags_of_mem h ht hkind
    have hflags : HasFlags t (behind.takeWhile isNamePart) := ⟨hkind, body, hbody, htext⟩
    exact ⟨_, hflags, fun flags hother => hother.unique hflags⟩

end Source

/-- A byte order mark, a no-break space, a line separator and an ideographic space between names,
signs, numbers and a regular expression with a space in its body: all of them stay outside. -/
theorem wide_spaces_separate_around_flags :
    ∃ source tokens, source = "\ufeffa\u00a0=/[/\u3000]/g;\u2028.5" ∧
      tokenize source = .ok tokens ∧
      tokens.map Token.word = ["a", "=", "/[/\u3000]/g", ";", ".5"] ∧
      (∀ t ∈ tokens, KeepsSpacesOut t) ∧ ∀ t ∈ tokens, ¬MeetsSpace source t := by
  have h : tokenize "\ufeffa\u00a0=/[/\u3000]/g;\u2028.5" = .ok
      [⟨.ident, [], 3, ['a']⟩, ⟨.punct, ['\u00a0'], 6, ['=']⟩,
        ⟨.regex, [], 7, "/[/\u3000]/g".toList⟩, ⟨.punct, [], 16, [';']⟩,
        ⟨.number, ['\u2028'], 20, ".5".toList⟩] := by
    decide +kernel
  obtain ⟨hmeets, hplain, hflags⟩ := wide_spaces_separate_iff h
  have hbody : RegexBody false "[/\u3000]".toList :=
    .plain (by decide) (by decide) (by decide) <| .plain (by decide) (by decide) (by decide) <|
      .plain (by decide) (by decide) (by decide) <| .plain (by decide) (by decide) (by decide) .nil
  refine ⟨_, _, rfl, h, by decide, ?_⟩
  rw [← hmeets, and_self]
  intro t ht
  by_cases hkind : t.kind = .regex
  · have hregex : t.text = "/[/\u3000]/g".toList := by
      simp only [List.mem_cons, List.not_mem_nil, or_false] at ht
      rcases ht with rfl | rfl | rfl | rfl | rfl
      · exact absurd hkind (by decide)
      · exact absurd hkind (by decide)
      · rfl
      · exact absurd hkind (by decide)
      · exact absurd hkind (by decide)
    have hread : HasFlags t ['g'] := ⟨hkind, _, hbody, hregex⟩
    refine ⟨fun hother => absurd hother (by simp [hkind]), fun flags hother c hc => ?_⟩
    obtain rfl := (hflags t ht hkind).unique hother hread
    obtain rfl := List.mem_singleton.mp hc
    exact not_isWideSpace_of_lt (by decide)
  · exact hplain t ht hkind

/-- A no-break space directly behind a regular expression is read as one of its flags, and so is the
name behind the space. A byte order mark goes the same way. -/
theorem flags_run_on_through_space :
    (∃ t, tokenize "/a/\u00a0b" = .ok [t] ∧ t.word = "/a/\u00a0b" ∧ ¬KeepsSpacesOut t) ∧
    ∃ t u, tokenize "/a/g\ufeff;" = .ok [t, u] ∧ t.word = "/a/g\ufeff" ∧ ¬KeepsSpacesOut t := by
  have hbody : RegexBody false ['a'] :=
    .plain (by decide) (by decide) (by decide) .nil
  refine ⟨⟨⟨.regex, [], 0, "/a/\u00a0b".toList⟩, by decide +kernel, rfl, fun hout => ?_⟩,
    ⟨.regex, [], 0, "/a/g\ufeff".toList⟩, ⟨.punct, [], 7, [';']⟩, by decide +kernel, rfl,
    fun hout => ?_⟩
  · exact hout.2 "\u00a0b".toList ⟨rfl, ['a'], hbody, rfl⟩ '\u00a0' (by decide) (by decide)
  · exact hout.2 "g\ufeff".toList ⟨rfl, ['a'], hbody, rfl⟩ '\ufeff' (by decide) (by decide)

end Script

end Reclass
