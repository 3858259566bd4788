import Reclass.Script.Lexeme

/-!
# Reading tokens

Templates nest whole sequences of tokens in their substitutions, so reading a token, reading the
text of a template and reading a substitution call each other. Each of them leaves strictly less
text than it was given, and one that fails says from where the reading can go on.
-/

namespace Reclass.Script

/-- A reading that failed: what is wrong, the text from the faulty place on, the text from which
reading goes on, and whether a slash would start a regular expression there. -/
structure Failure where
  fault : Fault
  site : List Char
  rest : List Char
  slash : Bool
  deriving DecidableEq, Repr

/-- What comes of reading at the start of `s`: something read and strictly less text, or a
failure. -/
inductive Reading (s : List Char) (α : Type) where
  | done (value : α) (rest : List Char) (shorter : rest.length < s.length)
  | failed (failure : Failure)

/-- A token without its place. -/
structure Lexeme where
  kind : TokenKind
  text : List Char
  deriving DecidableEq, Repr

private theorem length_lt_of_append {s text rest : List Char} (h : s = text ++ rest)
    (hne : text ≠ []) : rest.length < s.length := by
  have := List.length_pos_iff.mpr hne
  rw [h, List.length_append]
  omega

private theorem length_le_of_append {s text rest : List Char} (h : text ++ rest = s) :
    rest.length ≤ s.length := by
  rw [← h, List.length_append]
  omega

private theorem numberTail_length (hex : Bool) (before : Char) (s : List Char) :
    (numberTail hex before s).2.length ≤ s.length :=
  length_le_of_append (numberTail_append hex before s)

mutual

/-- Reads the token that starts with `c` and goes on in `s`. `slash` says whether a slash starts a
regular expression here. -/
def lexeme (slash : Bool) (c : Char) (s : List Char) : Reading (c :: s) Lexeme :=
  if c = '"' ∨ c = '\'' then
    match h : stringTail c s with
    | .ok (text, rest) =>
      .done ⟨.str, c :: text⟩ rest (by
        obtain ⟨heq, hne⟩ := stringTail_append h
        exact Nat.lt_succ_of_lt (length_lt_of_append heq hne))
    | .error rest => .failed ⟨.unterminatedString, c :: s, rest, slash⟩
  else if c = '\x60' then
    match template (c :: s) s with
    | .done text rest h => .done ⟨.template, c :: text⟩ rest (Nat.lt_succ_of_lt h)
    | .failed failure => .failed failure
  else if c = '/' ∧ s.head? = some '*' then
    .failed ⟨.unterminatedComment, c :: s, c :: s, slash⟩
  else if c = '/' ∧ slash then
    match h : regexTail false s with
    | .ok (text, rest) =>
      .done ⟨.regex, c :: text⟩ rest (by
        obtain ⟨heq, hne⟩ := regexTail_append h
        exact Nat.lt_succ_of_lt (length_lt_of_append heq hne))
    | .error rest => .failed ⟨.unterminatedRegex, c :: s, rest, slash⟩
  else if c.isDigit ∨ (c = '.' ∧ s.head?.any Char.isDigit) then
    .done ⟨.number, (number c s).1⟩ (number c s).2
      (Nat.lt_succ_of_le (numberTail_length _ c s))
  else if isNameStart c then
    .done ⟨.ident, c :: s.takeWhile continuesName⟩ (s.dropWhile continuesName)
      (Nat.lt_succ_of_le (length_le_of_append List.takeWhile_append_dropWhile))
  else
    .done ⟨.punct, (punctuation c s).1⟩ (punctuation c s).2
      (length_lt_of_append (punctuation_append c s).symm (punctuation_ne_nil c s))
termination_by 2 * (s.length + 1)

/-- Reads the text of a template up to and including its closing quote. `site` is the text from the
opening quote on. -/
def template (site : List Char) (s : List Char) : Reading s (List Char) :=
  match s with
  | [] => .failed ⟨.unterminatedTemplate, site, [], false⟩
  | c :: s =>
    if c = '\x60' then .done [c] s (Nat.lt_succ_self _)
    else match c, s with
      | '\\', [] => .failed ⟨.unterminatedTemplate, site, [], false⟩
      | '\\', d :: s =>
        match template site s with
        | .done text rest h =>
          .done ('\\' :: d :: text) rest (Nat.lt_succ_of_lt (Nat.lt_succ_of_lt h))
        | .failed failure => .failed failure
      | '$', '\x7b' :: s =>
        match substitution site 0 true s with
        | .failed failure => .failed failure
        | .done inner after h =>
          match template site after with
          | .done text rest h' =>
            .done ('$' :: '\x7b' :: (inner ++ text)) rest
              (Nat.lt_trans h' (Nat.lt_succ_of_lt (Nat.lt_succ_of_lt h)))
          | .failed failure => .failed failure
      | c, s =>
        match template site s with
        | .done text rest h => .done (c :: text) rest (Nat.lt_succ_of_lt h)
        | .failed failure => .failed failure
termination_by 2 * s.length

/-- Reads a substitution up to and including the brace that closes it; `depth` braces are open
inside it. `site` is the text from the opening quote of the template on. -/
def substitution (site : List Char) (depth : Nat) (slash : Bool) (s : List Char) :
    Reading s (List Char) :=
  match hgap : (gap s).2 with
  | [] => .failed ⟨.unterminatedSubstitution, site, [], slash⟩
  | c :: after =>
    have hle : (c :: after).length ≤ s.length := hgap ▸ gap_length s
    match lexeme slash c after with
    | .failed failure => .failed failure
    | .done token rest h =>
      let read := (gap s).1 ++ token.text
      let next (depth : Nat) : Reading s (List Char) :=
        match substitution site depth (opensRegex token.kind token.text) rest with
        | .done text rest' h' =>
          .done (read ++ text) rest' (Nat.lt_trans h' (Nat.lt_of_lt_of_le h hle))
        | .failed failure => .failed failure
      if token = ⟨.punct, ['\x7b']⟩ then next (depth + 1)
      else if token = ⟨.punct, ['\x7d']⟩ then
        match depth with
        | 0 => .done read rest (Nat.lt_of_lt_of_le h hle)
        | depth + 1 => next depth
      else next depth
termination_by 2 * s.length + 1
decreasing_by
  · simp only [List.length_cons] at hle
    omega
  · simp only [List.length_cons] at hle h
    omega

end

end Reclass.Script
