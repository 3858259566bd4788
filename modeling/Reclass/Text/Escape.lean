/-!
# Quoted text

Between quotes a backslash gives the character after it a meaning: `n`, `t` and `r` are control
characters, a line feed is left out, and every other character stands for itself. `Quote.written`
is the other direction, and writes any text as a literal.
-/

namespace Reclass.Text

/-- The text that the inside of a literal stands for. -/
def unescape : List Char → List Char
  | [] => []
  | '\\' :: 'n' :: s => '\n' :: unescape s
  | '\\' :: 't' :: s => '\t' :: unescape s
  | '\\' :: 'r' :: s => '\r' :: unescape s
  | '\\' :: '\n' :: s => unescape s
  | '\\' :: c :: s => c :: unescape s
  | ['\\'] => []
  | c :: s => c :: unescape s

/-- The three ways to quote. -/
inductive Quote where
  | single
  | double
  | back
  deriving DecidableEq, Repr

/-- The character that opens and closes the literal. -/
def Quote.char : Quote → Char
  | .single => '\''
  | .double => '"'
  | .back => '\x60'

/-- One character as it is written between quotes. Between back quotes a brace is escaped as well,
since a dollar sign before a brace would open a substitution. -/
def Quote.escapeChar (q : Quote) (c : Char) : List Char :=
  if c = '\n' then ['\\', 'n']
  else if c = '\t' then ['\\', 't']
  else if c = '\r' then ['\\', 'r']
  else if c = '\\' ∨ c = q.char ∨ (q = .back ∧ c = '\x7b') then ['\\', c]
  else [c]

/-- A text as the inside of a literal. -/
def Quote.escape (q : Quote) (s : List Char) : List Char := s.flatMap q.escapeChar

/-- A text as a literal, quotes included. -/
def Quote.written (q : Quote) (s : List Char) : List Char :=
  q.char :: (q.escape s ++ [q.char])

end Reclass.Text
