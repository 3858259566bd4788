import Reclass.Proofs.Script.Again
import Reclass.Script.Stream

/-!
# All tokens of a text

The tokens of a text without their places. Words, signs and spaces at the start of a text are
read one at a time, and what follows a text does not change its tokens when it is detached from
them: when it goes on with no token and does not start with a slash.
-/

namespace Reclass

/-- A token without its place. -/
def Token.lexeme (t : Token) : Script.Lexeme := ⟨t.kind, t.text⟩

namespace Script

/-- Whether a slash behind a token starts a regular expression. -/
def Lexeme.slash (token : Lexeme) : Bool := opensRegex token.kind token.text

/-- Behind a name, a slash starts a regular expression when the name is one of the words before an
expression. -/
theorem opensRegex_ident_iff {text : List Char} :
    opensRegex .ident text = true ↔ text ∈ expressionWords.map String.toList := by
  simp [opensRegex]

/-- All tokens of a text, when each of them can be read. -/
def lexemes? (slash : Bool) (s : List Char) : Option (List Lexeme) :=
  if (gap s).2 = [] then some []
  else
    match _h : lexeme? slash (gap s).2 with
    | none => none
    | some (token, rest) => (lexemes? token.slash rest).map (token :: ·)
termination_by s.length
decreasing_by exact Nat.lt_of_lt_of_le (lexeme?_length _h) (gap_length s)

/-- Behind a gap the tokens are the first one and those that follow it. -/
theorem lexemes?_eq (slash : Bool) (s : List Char) :
    lexemes? slash s =
      if (gap s).2 = [] then some []
      else (lexeme? slash (gap s).2).bind fun (token, rest) =>
        (lexemes? token.slash rest).map (token :: ·) := by
  rw [lexemes?]
  split
  · rfl
  · split <;> next h => simp [h]

/-- A gap holds no tokens. -/
theorem lexemes?_of_gap_eq_nil {slash : Bool} {s : List Char} (h : (gap s).2 = []) :
    lexemes? slash s = some [] := by
  rw [lexemes?_eq, if_pos h]

/-- The tokens of a text of which the first one is known. -/
theorem lexemes?_of_read {slash : Bool} {s after rest : List Char} {token : Lexeme}
    (hgap : (gap s).2 = after) (h : LexemeRead slash after token rest) :
    lexemes? slash s = (lexemes? token.slash rest).map (token :: ·) := by
  subst hgap
  have hne : (gap s).2 ≠ [] := by
    obtain ⟨hs, hne⟩ := h.append
    rw [hs]
    simp [hne]
  rw [lexemes?_eq, if_neg hne, lexeme?_eq_some_iff.mpr h]
  rfl

/-- The first token of a text and those behind it. -/
theorem exists_read_of_lexemes? {slash : Bool} {s : List Char} {token : Lexeme}
    {tokens : List Lexeme} (h : lexemes? slash s = some (token :: tokens)) :
    ∃ rest, LexemeRead slash (gap s).2 token rest ∧ lexemes? token.slash rest = some tokens := by
  rw [lexemes?_eq] at h
  split at h
  · exact absurd h (by simp)
  · obtain ⟨⟨first, rest⟩, hread, hrest⟩ := Option.bind_eq_some_iff.mp h
    obtain ⟨others, hothers, hcons⟩ := Option.map_eq_some_iff.mp hrest
    cases hcons
    exact ⟨rest, lexeme?_eq_some_iff.mp hread, hothers⟩

/-- Only what a gap leaves counts. -/
theorem lexemes?_congr_gap {slash : Bool} {s t : List Char} (h : (gap s).2 = (gap t).2) :
    lexemes? slash s = lexemes? slash t := by
  rw [lexemes?_eq, lexemes?_eq, h]

/-- A space is skipped. -/
theorem lexemes?_space {slash : Bool} {c : Char} {s : List Char} (hc : isSpace c = true) :
    lexemes? slash (c :: s) = lexemes? slash s :=
  lexemes?_congr_gap (by rw [gap_space hc])

/-- Spaces are skipped. -/
theorem lexemes?_spaces {slash : Bool} {spaces s : List Char} (h : spaces.all isSpace = true) :
    lexemes? slash (spaces ++ s) = lexemes? slash s := by
  induction spaces with
  | nil => rfl
  | cons c spaces ih =>
    simp only [List.all_cons, Bool.and_eq_true] at h
    rw [List.cons_append, lexemes?_space h.1, ih h.2]

/-! ### Words and signs -/

/-- A sign of one character as a token. -/
def sign (c : Char) : Lexeme := ⟨.punct, [c]⟩

/-- A word as a token. -/
def word (s : String) : Lexeme := ⟨.ident, s.toList⟩

/-- Whether a text is one word. -/
def isWord : List Char → Bool
  | [] => false
  | c :: s => isNameStart c && continuesName c && s.all continuesName

/-- No name goes on with a space. -/
theorem isSpace_of_continuesName {c : Char} (h : continuesName c = true) :
    isSpace c = false := by
  unfold continuesName at h
  split at h
  · next hascii =>
    have hne (d : Char) (hd : isNamePart d = false) : (c == d) = false := by
      rw [beq_eq_false_iff_ne]
      rintro rfl
      exact absurd h (by simp [hd])
    simp [isSpace, hascii, hne ' ' (by decide), hne '\t' (by decide), hne '\n' (by decide),
      hne '\r' (by decide), hne '\x0c' (by decide)]
  · simpa using h

/-- Beyond ASCII a name may hold spaces, but a name token does not go on with them. -/
theorem continuesName_of_isNamePart {c : Char} (hname : isNamePart c = true)
    (hspace : isSpace c = false) : continuesName c = true := by
  unfold continuesName
  split
  · exact hname
  · rw [hspace]
    rfl

/-- A name is one word when it holds no spaces. -/
theorem isWord_iff_of_isName {s : List Char} (h : isName s = true) :
    isWord s = true ↔ ∀ c ∈ s, isSpace c = false := by
  cases s with
  | nil => exact absurd h (by decide)
  | cons c s =>
    simp only [isName, Bool.and_eq_true, List.all_eq_true] at h
    have hpart : isNamePart c = true := by simp [isNamePart, h.1]
    simp only [isWord, Bool.and_eq_true, List.all_eq_true, List.forall_mem_cons]
    constructor
    · rintro ⟨⟨_, hc⟩, hs⟩
      exact ⟨isSpace_of_continuesName hc, fun d hd => isSpace_of_continuesName (hs d hd)⟩
    · rintro ⟨hc, hs⟩
      exact ⟨⟨h.1, continuesName_of_isNamePart hpart hc⟩,
        fun d hd => continuesName_of_isNamePart (h.2 d hd) (hs d hd)⟩

/-- A word is read up to a text that does not go on with it. -/
theorem lexemes?_word {slash : Bool} {word rest : List Char} (hword : isWord word = true)
    (hrest : ∀ c ∈ rest.head?, continuesName c = false) :
    lexemes? slash (word ++ rest) =
      (lexemes? (opensRegex .ident word) rest).map (⟨.ident, word⟩ :: ·) := by
  cases word with
  | nil => exact absurd hword (by decide)
  | cons c s =>
    simp only [isWord, Bool.and_eq_true] at hword
    obtain ⟨⟨hstart, hc⟩, hs⟩ := hword
    have hslash : c ≠ '/' := by
      rintro rfl
      exact absurd hstart (by decide)
    have hnone : separator? (c :: (s ++ rest)) = none :=
      separator?_eq_none _ (isSpace_of_continuesName hc) fun h => absurd h hslash
    have hall : ∀ d ∈ s, continuesName d = true := List.all_eq_true.mp hs
    have hread : LexemeRead slash (c :: (s ++ rest)) _ _ := .ident hstart
    rw [List.takeWhile_append_of_pos hall, List.dropWhile_append_of_pos hall] at hread
    have htake : rest.takeWhile continuesName = [] := by
      cases rest with
      | nil => rfl
      | cons d rest => simp [hrest d rfl]
    have hdrop : rest.dropWhile continuesName = rest := by
      cases rest with
      | nil => rfl
      | cons d rest => simp [hrest d rfl]
    rw [htake, hdrop, List.append_nil] at hread
    exact lexemes?_of_read (by rw [List.cons_append, gap_of_separator?_eq_none hnone]) hread

/-- The signs that are tokens before every text. -/
def isMark (c : Char) : Bool := ['(', ')', '[', ']', '\x7b', '\x7d', ';', '*'].contains c

private theorem lexemeRead_single {slash : Bool} {c : Char} {rest : List Char}
    (hc : ¬(c = '"' ∨ c = '\'') ∧ c ≠ '\x60' ∧ c ≠ '/' ∧ c.isDigit = false ∧
      isNameStart c = false ∧ isSpace c = false)
    (hpoint : c = '.' → (∀ d ∈ rest.head?, d.isDigit = false) ∧ ∀ t, rest ≠ '.' :: '.' :: t)
    (harrow : c = '=' → rest.head? ≠ some '>') :
    separator? (c :: rest) = none ∧ LexemeRead slash (c :: rest) (sign c) rest := by
  obtain ⟨hquote, hback, hslash, hdigit, hname, hspace⟩ := hc
  have hnumber : ¬(c.isDigit ∨ (c = '.' ∧ rest.head?.any Char.isDigit)) := by
    rintro (h | ⟨h, hd⟩)
    · exact absurd h (by simp [hdigit])
    · obtain ⟨d, hd, hdigit⟩ := (Option.any_eq_true _ _).mp hd
      rw [(hpoint h).1 d hd] at hdigit
      exact Bool.noConfusion hdigit
  have hread : LexemeRead slash (c :: rest) ⟨.punct, (punctuation c rest).1⟩
      (punctuation c rest).2 :=
    .punct hquote hback (fun h => absurd h hslash) hnumber (by simp [hname])
  rw [punctuation_single (fun h => (hpoint h).2) harrow] at hread
  exact ⟨separator?_eq_none _ hspace fun h => absurd h hslash, hread⟩

/-- A bracket, a semicolon or a star is read before every text. -/
theorem lexemeRead_mark {c : Char} (slash : Bool) (rest : List Char) (hc : isMark c = true) :
    separator? (c :: rest) = none ∧ LexemeRead slash (c :: rest) (sign c) rest := by
  simp only [isMark, List.contains_eq_mem, List.mem_cons, List.not_mem_nil, or_false,
    decide_eq_true_eq] at hc
  refine lexemeRead_single ?_ ?_ ?_
  · rcases hc with rfl | rfl | rfl | rfl | rfl | rfl | rfl | rfl <;> decide
  · rintro rfl
    exact absurd hc (by decide)
  · rintro rfl
    exact absurd hc (by decide)

/-- The tokens of a text that starts with a sign. -/
private theorem lexemes?_sign {slash : Bool} {c : Char} {rest : List Char}
    (h : separator? (c :: rest) = none ∧ LexemeRead slash (c :: rest) (sign c) rest) :
    lexemes? slash (c :: rest) =
      (lexemes? (opensRegex .punct [c]) rest).map (⟨.punct, [c]⟩ :: ·) :=
  lexemes?_of_read (by rw [gap_of_separator?_eq_none h.1]) h.2

/-- A bracket, a semicolon or a star is a token of its own. -/
theorem lexemes?_mark {slash : Bool} {c : Char} {rest : List Char} (hc : isMark c = true) :
    lexemes? slash (c :: rest) =
      (lexemes? (opensRegex .punct [c]) rest).map (⟨.punct, [c]⟩ :: ·) :=
  lexemes?_sign (lexemeRead_mark _ _ hc)

/-- An equals sign is a token unless it belongs to an arrow. -/
theorem lexemes?_equals {slash : Bool} {rest : List Char} (hrest : rest.head? ≠ some '>') :
    lexemes? slash ('=' :: rest) = (lexemes? true rest).map (⟨.punct, ['=']⟩ :: ·) :=
  lexemes?_sign (lexemeRead_single (by decide) (fun h => absurd h (by decide)) fun _ => hrest)

/-- A point is a token unless it belongs to a number or to three points. -/
theorem lexemes?_point {slash : Bool} {rest : List Char}
    (hrest : ∀ c ∈ rest.head?, c.isDigit = false ∧ c ≠ '.') :
    lexemes? slash ('.' :: rest) = (lexemes? true rest).map (⟨.punct, ['.']⟩ :: ·) := by
  refine lexemes?_sign (lexemeRead_single (by decide) (fun _ => ⟨fun d hd => (hrest d hd).1, ?_⟩)
    fun h => absurd h (by decide))
  rintro t rfl
  exact (hrest '.' rfl).2 rfl

/-! ### Detached texts -/

/-- That a text has the same tokens whatever a slash would start at its beginning. -/
def SlashFree (s : List Char) : Prop := ∀ slash slash', lexemes? slash s = lexemes? slash' s

/-- That a text does not depend on what token stands before it, and leaves that token as it is. -/
def Detached (s : List Char) : Prop := Neutral s ∧ SlashFree s

/-- Where no slash stands, it does not matter what a slash would start. -/
theorem slashFree_of_head {s : List Char} (h : (gap s).2.head? ≠ some '/') : SlashFree s := by
  intro slash slash'
  have hread : lexeme? slash (gap s).2 = lexeme? slash' (gap s).2 := by
    cases hgap : (gap s).2 with
    | nil => rfl
    | cons c t =>
      have hc : c ≠ '/' := by
        rintro rfl
        exact h (by rw [hgap]; rfl)
      rw [lexeme?_cons, lexeme?_cons]
      simp [hc]
  rw [lexemes?_eq, lexemes?_eq, hread]

/-- What a slash would start says nothing of a text that starts with neither a space nor a slash. -/
theorem slashFree_cons {c : Char} {s : List Char} (hspace : isSpace c = false) (hslash : c ≠ '/') :
    SlashFree (c :: s) := by
  have hnone : separator? (c :: s) = none :=
    separator?_eq_none _ hspace fun h => absurd h hslash
  refine slashFree_of_head ?_
  rw [gap_of_separator?_eq_none hnone]
  simpa using hslash

/-- The empty text is detached. -/
theorem detached_nil : Detached [] := by
  refine ⟨by simp [Neutral], slashFree_of_head ?_⟩
  rw [gap_of_separator?_eq_none rfl]
  simp

/-- A text that starts with a neutral character goes on with no token. -/
theorem neutral_cons {c : Char} {s : List Char} (hc : isNeutral c = true) : Neutral (c :: s) :=
  forall_mem_head?_cons.mpr hc

/-- A text that starts with a neutral sign is detached. -/
theorem detached_cons {c : Char} {s : List Char} (hneutral : isNeutral c = true)
    (hspace : isSpace c = false) : Detached (c :: s) := by
  refine ⟨neutral_cons hneutral, slashFree_cons hspace ?_⟩
  rintro rfl
  exact absurd hneutral (by decide)

/-- That a text has some tokens of its own before every detached text. -/
def ReadsAs (slash : Bool) (text : List Char) (tokens : List Lexeme) : Prop :=
  ∀ rest slash', Detached rest →
    lexemes? slash (text ++ rest) = (lexemes? slash' rest).map (tokens ++ ·)

/-- That a text has some tokens of its own, whatever a slash would start at its beginning. -/
def ReadsAnywhere (text : List Char) (tokens : List Lexeme) : Prop :=
  ∀ slash, ReadsAs slash text tokens

/-- Read on its own, a text has the same tokens. -/
theorem ReadsAs.lexemes? {slash : Bool} {text : List Char} {tokens : List Lexeme}
    (h : ReadsAs slash text tokens) : lexemes? slash text = some tokens := by
  have hnil := h [] slash detached_nil
  have hgap : (gap []).2 = [] := by rw [gap_of_separator?_eq_none rfl]
  rw [List.append_nil, lexemes?_of_gap_eq_nil (s := []) hgap] at hnil
  simpa using hnil

/-- A text whose first character is neither a space nor a slash is read anywhere. -/
theorem ReadsAs.anywhere {slash : Bool} {c : Char} {text : List Char} {tokens : List Lexeme}
    (h : ReadsAs slash (c :: text) tokens) (hspace : isSpace c = false) (hslash : c ≠ '/') :
    ReadsAnywhere (c :: text) tokens := by
  intro slash₁ rest slash₂ hrest
  rw [List.cons_append, slashFree_cons hspace hslash slash₁ slash]
  exact h rest slash₂ hrest

/-- A text that can be read anywhere does not depend on what a slash would start. -/
theorem ReadsAnywhere.slashFree {text rest : List Char} {tokens : List Lexeme}
    (h : ReadsAnywhere text tokens) (hrest : Detached rest) : SlashFree (text ++ rest) := by
  intro slash slash'
  rw [h slash rest true hrest, h slash' rest true hrest]

/-- A text before one that starts with a neutral sign. -/
theorem ReadsAs.append {slash : Bool} {s t : List Char} {tokens tokens' : List Lexeme}
    (hs : ReadsAs slash s tokens) (ht : ReadsAnywhere t tokens')
    (hneutral : t.head?.any isNeutral) : ReadsAs slash (s ++ t) (tokens ++ tokens') := by
  intro rest slash' hrest
  have hdetached : Detached (t ++ rest) :=
    ⟨forall_mem_head?_append hneutral rest, ht.slashFree hrest⟩
  rw [List.append_assoc, hs _ true hdetached, ht true rest slash' hrest, Option.map_map]
  simp only [Function.comp_def, List.append_assoc]

/-- Two texts that can be read anywhere can be read one after the other. -/
theorem ReadsAnywhere.append {s t : List Char} {tokens tokens' : List Lexeme}
    (hs : ReadsAnywhere s tokens) (ht : ReadsAnywhere t tokens')
    (hneutral : t.head?.any isNeutral) : ReadsAnywhere (s ++ t) (tokens ++ tokens') :=
  fun slash => (hs slash).append ht hneutral

/-- Nothing has no tokens. -/
theorem readsAnywhere_nil : ReadsAnywhere [] [] := by
  intro slash rest slash' hrest
  rw [List.nil_append, hrest.2 slash slash']
  simp

/-- A space before a text adds no token. -/
theorem ReadsAnywhere.blank {c : Char} {text : List Char} {tokens : List Lexeme}
    (h : ReadsAnywhere text tokens) (hc : isSpace c = true) : ReadsAnywhere (c :: text) tokens := by
  intro slash rest slash' hrest
  rw [List.cons_append, lexemes?_space hc]
  exact h slash rest slash' hrest

/-- Spaces before a text add no tokens. -/
theorem ReadsAnywhere.spaces {spaces text : List Char} {tokens : List Lexeme}
    (h : ReadsAnywhere text tokens) (hspaces : spaces.all isSpace = true) :
    ReadsAnywhere (spaces ++ text) tokens := by
  intro slash rest slash' hrest
  rw [List.append_assoc, lexemes?_spaces hspaces]
  exact h slash rest slash' hrest

/-- A bracket, a semicolon or a star before a text that is read anywhere. -/
theorem ReadsAnywhere.mark {c : Char} {text : List Char} {tokens : List Lexeme}
    (h : ReadsAnywhere text tokens) (hc : isMark c = true) :
    ReadsAnywhere (c :: text) (sign c :: tokens) := by
  intro slash rest slash' hrest
  rw [List.cons_append, lexemes?_mark hc, h _ rest slash' hrest, Option.map_map]
  rfl

/-- A word before a text that does not go on with it. -/
theorem ReadsAnywhere.word {s : String} {text : List Char} {tokens : List Lexeme}
    (h : ReadsAnywhere text tokens) (hs : isWord s.toList = true)
    (hhead : text.head?.any (!continuesName ·)) :
    ReadsAnywhere (s.toList ++ text) (Script.word s :: tokens) := by
  intro slash rest slash' hrest
  have hends : ∀ c ∈ (text ++ rest).head?, continuesName c = false := fun c hc => by
    simpa using forall_mem_head?_append hhead rest c hc
  rw [List.append_assoc, lexemes?_word hs hends, h _ rest slash' hrest, Option.map_map]
  rfl

/-- A word and a blank before a text that is read as behind that word. -/
theorem ReadsAs.word {s : String} {text : List Char} {tokens : List Lexeme}
    (h : ReadsAs (opensRegex .ident s.toList) text tokens) (hs : isWord s.toList = true) :
    ReadsAnywhere (s.toList ++ ' ' :: text) (Script.word s :: tokens) := by
  intro slash rest slash' hrest
  have hends : ∀ c ∈ (' ' :: (text ++ rest)).head?, continuesName c = false :=
    forall_mem_head?_cons.mpr (by decide)
  rw [List.append_assoc, List.cons_append, lexemes?_word hs hends, lexemes?_space (by decide),
    h rest slash' hrest, Option.map_map]
  rfl

/-- An equals sign and a blank before a text that is read as behind that sign. -/
theorem ReadsAs.equals {text : List Char} {tokens : List Lexeme} (h : ReadsAs true text tokens) :
    ReadsAnywhere ('=' :: ' ' :: text) (sign '=' :: tokens) := by
  intro slash rest slash' hrest
  rw [List.cons_append, List.cons_append, lexemes?_equals (by simp), lexemes?_space (by decide),
    h rest slash' hrest, Option.map_map]
  rfl

/-- A point before a name. -/
theorem ReadsAnywhere.point {text : List Char} {tokens : List Lexeme}
    (h : ReadsAnywhere text tokens) (hhead : text.head?.any isNameStart) :
    ReadsAnywhere ('.' :: text) (sign '.' :: tokens) := by
  intro slash rest slash' hrest
  have hends : ∀ c ∈ (text ++ rest).head?, c.isDigit = false ∧ c ≠ '.' := by
    intro c hc
    have hstart : isNameStart c = true := forall_mem_head?_append hhead rest c hc
    refine ⟨by simpa using not_isDigit_of_isNameStart hstart, ?_⟩
    rintro rfl
    exact absurd hstart (by decide)
  rw [List.cons_append, lexemes?_point hends, h true rest slash' hrest, Option.map_map]
  rfl

/-- A bracket or a semicolon behind a text. -/
theorem ReadsAs.mark {slash : Bool} {c : Char} {text : List Char} {tokens : List Lexeme}
    (h : ReadsAs slash text tokens) (hc : isMark c = true) (hneutral : isNeutral c = true) :
    ReadsAs slash (text ++ [c]) (tokens ++ [sign c]) := by
  intro rest slash' hrest
  have hspace : isSpace c = false := by
    simp only [isMark, List.contains_eq_mem, List.mem_cons, List.not_mem_nil, or_false,
      decide_eq_true_eq] at hc
    rcases hc with rfl | rfl | rfl | rfl | rfl | rfl | rfl | rfl <;> decide
  rw [List.append_assoc, List.singleton_append, h (c :: rest) true (detached_cons hneutral hspace),
    lexemes?_mark hc, hrest.2 _ slash', Option.map_map]
  simp only [Function.comp_def, List.append_assoc, List.singleton_append]
  rfl

/-- A gap, a token, and a text that has tokens of its own. -/
theorem ReadsAs.cons {slash : Bool} {s skipped after rest : List Char} {token : Lexeme}
    {tokens : List Lexeme} (hgap : gap s = (skipped, after))
    (hread : LexemeRead slash after token rest) (hrest : ReadsAs token.slash rest tokens) :
    ReadsAs slash s (token :: tokens) := by
  intro new slash' hnew
  obtain rfl : skipped = (gap s).1 := by rw [hgap]
  obtain rfl : after = (gap s).2 := by rw [hgap]
  have hends : token.EndsBefore (rest ++ new) := by
    have hold : token.EndsBefore (rest ++ []) := by
      rw [List.append_nil]
      exact hread.endsBefore (separator?_gap s)
    exact hold.extend hnew.1
  have hs : s ++ new = (gap s).1 ++ (token.text ++ (rest ++ new)) := by
    rw [← List.append_assoc token.text, ← hread.append.1, ← List.append_assoc, gap_append]
  rw [hs, lexemes?_of_read (congrArg Prod.snd (hread.gap_again hends)) (hread.again hends),
    hrest new slash' hnew, Option.map_map]
  rfl

/-! ### Strings -/

/-- Whether a character stands for itself between single quotes. -/
def isPlain (c : Char) : Bool := c != '\'' && c != '\\' && c != '\n'

private theorem stringTail_quoted {s : List Char} (h : s.all isPlain = true) :
    stringTail '\'' (s ++ ['\'']) = .ok (s ++ ['\''], []) := by
  induction s with
  | nil => exact stringTail_cons [] (by decide) (by decide)
  | cons c s ih =>
    simp only [List.all_cons, isPlain, Bool.and_eq_true, bne_iff_ne] at h
    obtain ⟨⟨⟨hquote, hescape⟩, hfeed⟩, hs⟩ := h
    rw [List.cons_append, stringTail_cons _ hfeed hescape, if_neg hquote, ih hs]
    rfl

/-- A text between single quotes is one token when all its characters stand for themselves. -/
theorem readsAnywhere_quoted {s : List Char} (h : s.all isPlain = true) :
    ReadsAnywhere ('\'' :: (s ++ ['\''])) [⟨.str, '\'' :: (s ++ ['\''])⟩] := by
  have hnone : separator? ('\'' :: (s ++ ['\''])) = none :=
    separator?_eq_none _ (by decide) fun hslash => absurd hslash (by decide)
  intro slash
  exact .cons (gap_of_separator?_eq_none hnone) (.str (.inr rfl) (stringTail_quoted h))
    (readsAnywhere_nil _)

/-! ### Names -/

/-- That a text is read as spaces and as tokens that are no signs. -/
inductive ReadsNames : List Char → Prop
  | nil : ReadsNames []
  | space {c : Char} {s : List Char} (hc : isSpace c = true) (hs : ReadsNames s) :
      ReadsNames (c :: s)
  | token {s rest : List Char} {token : Lexeme} (hgap : gap s = ([], s))
      (hread : ∀ slash, LexemeRead slash s token rest) (hkind : token.kind ≠ .punct)
      (hrest : ReadsNames rest) : ReadsNames s

/-- The characters of a name are read so. Spaces beyond ASCII are characters of a name, so it may be
several tokens. -/
theorem readsNames_of_isNamePart (s : List Char) (hs : ∀ c ∈ s, isNamePart c = true) :
    ReadsNames s := by
  induction hn : s.length using Nat.strongRecOn generalizing s with
  | ind n ih =>
    subst hn
    cases s with
    | nil => exact .nil
    | cons c t =>
      obtain ⟨hpart, ht⟩ := List.forall_mem_cons.mp hs
      by_cases hspace : isSpace c = true
      · exact .space hspace (ih t.length (by simp) t ht rfl)
      · have hslash : c ≠ '/' := by
          rintro rfl
          exact absurd hpart (by decide)
        have hgap : gap (c :: t) = ([], c :: t) :=
          gap_of_separator?_eq_none
            (separator?_eq_none t (by simpa using hspace) fun h => absurd h hslash)
        obtain ⟨token, rest, hkind, hread⟩ : ∃ (token : Lexeme) (rest : List Char),
            token.kind ≠ .punct ∧ ∀ slash, LexemeRead slash (c :: t) token rest := by
          simp only [isNamePart, Bool.or_eq_true] at hpart
          rcases hpart with hname | hdigit
          · exact ⟨_, _, by simp, fun slash => .ident hname⟩
          · exact ⟨_, _, by simp, fun slash => .number (.inl hdigit)⟩
        obtain ⟨hsplit, hne⟩ := (hread true).append
        have hlt : rest.length < (c :: t).length := by
          rw [hsplit, List.length_append]
          have hpos := List.length_pos_iff.mpr hne
          omega
        have hrest : ∀ d ∈ rest, isNamePart d = true := fun d hd =>
          hs d (by rw [hsplit]; exact List.mem_append_right _ hd)
        exact .token hgap hread hkind (ih rest.length hlt rest hrest rfl)

/-- Such a text has tokens of its own, none of which is a sign. -/
theorem ReadsNames.exists_readsAnywhere {s : List Char} (h : ReadsNames s) :
    ∃ tokens : List Lexeme, (∀ token ∈ tokens, token.kind ≠ .punct) ∧
      ReadsAnywhere s tokens := by
  induction h with
  | nil => exact ⟨[], by simp, readsAnywhere_nil⟩
  | space hc _ ih =>
    obtain ⟨tokens, hkinds, hreads⟩ := ih
    exact ⟨tokens, hkinds, hreads.blank hc⟩
  | @token _ _ token hgap hread hkind _ ih =>
    obtain ⟨tokens, hkinds, hreads⟩ := ih
    exact ⟨token :: tokens, List.forall_mem_cons.mpr ⟨hkind, hkinds⟩,
      fun slash => .cons hgap (hread slash) (hreads _)⟩

/-- A name has only characters of a name. -/
theorem isNamePart_of_isName {s : List Char} (h : isName s = true) :
    ∀ c ∈ s, isNamePart c = true := by
  cases s with
  | nil => simp
  | cons c s =>
    simp only [isName, Bool.and_eq_true, List.all_eq_true] at h
    intro d hd
    rcases List.mem_cons.mp hd with rfl | hd
    · simp [isNamePart, h.1]
    · exact h.2 d hd

end Script

end Reclass
