import Reclass.Fault
import Reclass.Text.Escape
import Reclass.Text.Fields
import Reclass.Text.Position

/-!
# Tokens

A token is a piece of program text together with the gap of white space and comments before it. A
run of neighbouring tokens therefore knows the text from its first character to its last, and
`Token.span` gives that text as it was written.
-/

namespace Reclass

/-- The classes of tokens. -/
inductive TokenKind where
  /-- Identifiers and keywords. -/
  | ident
  | number
  /-- Text between single or double quotes. -/
  | str
  /-- Text between back quotes, substitutions included. -/
  | template
  | regex
  | punct
  deriving DecidableEq, Repr

/-- A token of a script. -/
structure Token where
  kind : TokenKind
  /-- The white space and the comments in front of the token. -/
  gap : List Char
  /-- The byte offset of the first character of the token. -/
  start : Nat
  text : List Char
  deriving DecidableEq, Repr

namespace Token

/-- The byte offset behind the last character of the token. -/
def stop (t : Token) : Nat := t.start + Text.byteLength t.text

/-- The text of the token. -/
def word (t : Token) : String := String.ofList t.text

/-- Whether the token is this punctuation. -/
def isPunct (t : Token) (text : String) : Bool := t.kind == .punct && t.text == text.toList

/-- Whether the token is this identifier or keyword. -/
def isIdent (t : Token) (text : String) : Bool := t.kind == .ident && t.text == text.toList

/-- The characters between the quotes of a literal. -/
def inside (t : Token) : List Char := (t.text.drop 1).dropLast

/-- The text that a string, or a template without substitutions, stands for. -/
def textValue? (t : Token) : Option String :=
  match t.kind with
  | .str => some (String.ofList (Text.unescape t.inside))
  | .template =>
    if Text.occursIn ['$', '\x7b'] t.text then none
    else some (String.ofList (Text.unescape t.inside))
  | _ => none

/-- The text of neighbouring tokens, from the first character of the first one to the last
character of the last one. -/
def span : List Token → List Char
  | [] => []
  | t :: rest => t.text ++ rest.flatMap fun u => u.gap ++ u.text

/-- The end of the last of some tokens that follow `t`, or of `t` itself. -/
def lastStop (t : Token) (rest : List Token) : Nat := (rest.getLast?.getD t).stop

end Token

end Reclass
