import Reclass.Script.Token
import Reclass.Text.WhiteSpace

/-!
# Reading single lexemes

The parts of a script that nest nothing: gaps, quoted strings, regular expressions, numbers, names
and punctuation. A reader takes the text from some place on and answers with what it read and what
is left; both together are always the text it was given.
-/

namespace Reclass.Script

/-- The characters that separate tokens: five of ASCII, and beyond ASCII the white space of Unicode
and the byte order mark. -/
def isSpace (c : Char) : Bool :=
  if c.toNat < 0x80 then
    c == ' ' || c == '\t' || c == '\n' || c == '\r' || c == '\x0c'
  else
    c == '\ufeff' || Text.isWhiteSpace c

/-- The characters a name may start with; beyond ASCII that is every character. -/
def isNameStart (c : Char) : Bool :=
  c.isAlpha || c == '_' || c == '$' || decide (0x80 ≤ c.toNat)

/-- The characters a name may go on with; beyond ASCII that is every character. -/
def isNamePart (c : Char) : Bool := isNameStart c || c.isDigit

/-- Whether a text may be used as a name without quotes. -/
def isName : List Char → Bool
  | [] => false
  | c :: s => isNameStart c && s.all isNamePart

/-- Whether a name token goes on with this character: beyond ASCII, with everything but spaces. -/
def continuesName (c : Char) : Bool :=
  if c.toNat < 0x80 then isNamePart c else !isSpace c

/-- The words that leave an expression open, so that a slash after them starts a regular
expression. -/
def expressionWords : List String :=
  ["return", "typeof", "instanceof", "in", "of", "new", "delete", "void", "throw", "case", "do",
    "else", "yield", "await"]

/-- Whether a slash after a token starts a regular expression. After an operand it divides. -/
def opensRegex (kind : TokenKind) (text : List Char) : Bool :=
  match kind with
  | .ident => expressionWords.any (·.toList == text)
  | .punct => !(text == [')'] || text == [']'] || text == ['\x7d'])
  | _ => false

/-- Cuts behind the first `*/`, when there is one. -/
def commentTail : List Char → Option (List Char × List Char)
  | [] => none
  | '*' :: '/' :: s => some (['*', '/'], s)
  | c :: s => (commentTail s).map fun (text, rest) => (c :: text, rest)

/-- A comment and what stands behind it are the text. -/
theorem commentTail_append {s text rest : List Char} (h : commentTail s = some (text, rest)) :
    s = text ++ rest := by
  induction s using commentTail.induct generalizing text rest with
  | case1 => simp [commentTail] at h
  | case2 s =>
    simp only [commentTail, Option.some.injEq, Prod.mk.injEq] at h
    simp [← h.1, ← h.2]
  | case3 c s hs ih =>
    rw [commentTail.eq_3 _ _ hs] at h
    obtain ⟨⟨text', rest'⟩, h', heq⟩ := Option.map_eq_some_iff.mp h
    cases heq
    simp [ih h']

/-- Cuts off one space or one complete comment. A line comment ends before its line feed. -/
def separator? : List Char → Option (List Char × List Char)
  | [] => none
  | '/' :: '/' :: s => some ('/' :: '/' :: s.takeWhile (· != '\n'), s.dropWhile (· != '\n'))
  | '/' :: '*' :: s => (commentTail s).map fun (text, rest) => ('/' :: '*' :: text, rest)
  | c :: s => if isSpace c then some ([c], s) else none

/-- What is cut off and what is left are the text, and something is cut off. -/
theorem separator?_eq_some {s text rest : List Char} (h : separator? s = some (text, rest)) :
    s = text ++ rest ∧ text ≠ [] := by
  unfold separator? at h
  split at h
  · simp at h
  · simp only [Option.some.injEq, Prod.mk.injEq] at h
    obtain ⟨rfl, rfl⟩ := h
    simp [List.takeWhile_append_dropWhile]
  · obtain ⟨⟨comment, after⟩, hcomment, heq⟩ := Option.map_eq_some_iff.mp h
    cases heq
    simp [commentTail_append hcomment]
  · split at h
    · cases h
      simp
    · simp at h

/-- A separator takes something of the text. -/
theorem separator?_length {s text rest : List Char} (h : separator? s = some (text, rest)) :
    rest.length < s.length := by
  obtain ⟨rfl, hne⟩ := separator?_eq_some h
  have := List.length_pos_iff.mpr hne
  rw [List.length_append]
  omega

/-- Cuts off all white space and complete comments at the start of a text. A block comment that
never ends is left standing. -/
def gap (s : List Char) : List Char × List Char :=
  match _h : separator? s with
  | none => ([], s)
  | some (text, rest) => (text ++ (gap rest).1, (gap rest).2)
termination_by s.length
decreasing_by all_goals exact separator?_length _h

/-- A gap and what follows it are the text. -/
theorem gap_append (s : List Char) : (gap s).1 ++ (gap s).2 = s := by
  induction hn : s.length using Nat.strongRecOn generalizing s with
  | ind n ih =>
    subst hn
    rw [gap]
    split
    · rfl
    · next text rest h =>
      rw [List.append_assoc, ih _ (separator?_length h) rest rfl]
      exact (separator?_eq_some h).1.symm

/-- A gap adds nothing to the text behind it. -/
theorem gap_length (s : List Char) : (gap s).2.length ≤ s.length := by
  have := congrArg List.length (gap_append s)
  rw [List.length_append] at this
  omega

/-- Cuts off what only the start of a script may hold: a byte order mark, then a line that starts
with `#!`. -/
def lead (s : List Char) : List Char × List Char :=
  let (mark, s) := match s with
    | '\ufeff' :: s => (['\ufeff'], s)
    | s => ([], s)
  match s with
  | '#' :: '!' :: _ =>
    (mark ++ s.takeWhile (· != '\n'), s.dropWhile (· != '\n'))
  | s => (mark, s)

/-- Reads a string behind its opening quote. A backslash takes the next character along, even a
line feed; otherwise the string ends on its line. The error is what is left where it stopped. -/
def stringTail (quote : Char) : List Char → Except (List Char) (List Char × List Char)
  | [] => .error []
  | '\n' :: s => .error ('\n' :: s)
  | ['\\'] => .error []
  | '\\' :: c :: s => (stringTail quote s).map fun (text, rest) => ('\\' :: c :: text, rest)
  | c :: s =>
    if c = quote then .ok ([c], s)
    else (stringTail quote s).map fun (text, rest) => (c :: text, rest)

/-- What a string is read from is the text of the string and what is left. -/
theorem stringTail_append {quote : Char} {s text rest : List Char}
    (h : stringTail quote s = .ok (text, rest)) : s = text ++ rest ∧ text ≠ [] := by
  fun_induction stringTail quote s generalizing text rest with
  | case1 => simp at h
  | case2 => simp at h
  | case3 => simp at h
  | case4 c s ih =>
    cases hs : stringTail quote s with
    | error e => simp [hs, Except.map] at h
    | ok p =>
      simp only [hs, Except.map, Except.ok.injEq, Prod.mk.injEq] at h
      simp [(ih hs).1, ← h.1, ← h.2]
  | case5 s =>
    simp only [Except.ok.injEq, Prod.mk.injEq] at h
    simp [← h.1, ← h.2]
  | case6 c s _ _ _ _ ih =>
    cases hs : stringTail quote s with
    | error e => simp [hs, Except.map] at h
    | ok p =>
      simp only [hs, Except.map, Except.ok.injEq, Prod.mk.injEq] at h
      simp [(ih hs).1, ← h.1, ← h.2]

/-- Reads a regular expression behind its opening slash, its flags included. Inside square brackets
a slash does not close it. The error is what is left where it stopped. -/
def regexTail (inClass : Bool) : List Char → Except (List Char) (List Char × List Char)
  | [] => .error []
  | '\n' :: s => .error ('\n' :: s)
  | ['\\'] => .error []
  | '\\' :: c :: s => (regexTail inClass s).map fun (text, rest) => ('\\' :: c :: text, rest)
  | c :: s =>
    if c = '/' ∧ inClass = false then
      .ok (c :: s.takeWhile isNamePart, s.dropWhile isNamePart)
    else
      let inClass := if c = '[' then true else if c = ']' then false else inClass
      (regexTail inClass s).map fun (text, rest) => (c :: text, rest)

/-- What a regular expression is read from is its text and what is left. -/
theorem regexTail_append {inClass : Bool} {s text rest : List Char}
    (h : regexTail inClass s = .ok (text, rest)) : s = text ++ rest ∧ text ≠ [] := by
  fun_induction regexTail inClass s generalizing text rest with
  | case1 => simp at h
  | case2 => simp at h
  | case3 => simp at h
  | case4 inClass c s ih =>
    cases hs : regexTail inClass s with
    | error e => simp [hs, Except.map] at h
    | ok p =>
      simp only [hs, Except.map, Except.ok.injEq, Prod.mk.injEq] at h
      simp [(ih hs).1, ← h.1, ← h.2]
  | case5 inClass c s _ _ hclose =>
    simp only [Except.ok.injEq, Prod.mk.injEq] at h
    simp [← h.1, ← h.2, List.takeWhile_append_dropWhile]
  | case6 inClass c s _ _ _ hclose inClass' =>
    rename_i ih
    cases hs : regexTail inClass' s with
    | error e => simp [hs, Except.map] at h
    | ok p =>
      simp only [hs, Except.map, Except.ok.injEq, Prod.mk.injEq] at h
      simp [(ih hs).1, ← h.1, ← h.2]

/-- Reads the rest of a number that goes on behind `before`. Signs belong to it directly behind the
letter of an exponent, which a hexadecimal number does not have. -/
def numberTail (hex : Bool) (before : Char) : List Char → List Char × List Char
  | [] => ([], [])
  | c :: s =>
    let sign := (c == '+' || c == '-') && !hex && (before == 'e' || before == 'E')
    if c.isAlphanum || c == '_' || c == '.' || sign then
      let (text, rest) := numberTail hex c s
      (c :: text, rest)
    else ([], c :: s)

/-- The rest of a number and what stands behind it are the text. -/
theorem numberTail_append (hex : Bool) (before : Char) (s : List Char) :
    (numberTail hex before s).1 ++ (numberTail hex before s).2 = s := by
  induction s generalizing before with
  | nil => rfl
  | cons c s ih =>
    simp only [numberTail]
    split
    · simp [ih]
    · rfl

/-- Reads a number; its first character is a digit or a point. -/
def number (c : Char) (s : List Char) : List Char × List Char :=
  let hex := c == '0' && (s.head? == some 'x' || s.head? == some 'X')
  let (text, rest) := numberTail hex c s
  (c :: text, rest)

/-- What a number is read from is its text and what is left. -/
theorem number_append (c : Char) (s : List Char) : (number c s).1 ++ (number c s).2 = c :: s := by
  simp [number, numberTail_append]

/-- Reads a punctuation: three points, an arrow, or a single character. -/
def punctuation (c : Char) (s : List Char) : List Char × List Char :=
  match c, s with
  | '.', '.' :: '.' :: s => (['.', '.', '.'], s)
  | '=', '>' :: s => (['=', '>'], s)
  | c, s => ([c], s)

/-- What a punctuation is read from is its text and what is left. -/
theorem punctuation_append (c : Char) (s : List Char) :
    (punctuation c s).1 ++ (punctuation c s).2 = c :: s := by
  unfold punctuation
  split <;> rfl

/-- A sign has at least one character. -/
theorem punctuation_ne_nil (c : Char) (s : List Char) : (punctuation c s).1 ≠ [] := by
  unfold punctuation
  split <;> simp

end Reclass.Script
