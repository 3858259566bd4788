import Reclass.Handler.Kind

/-!
# Faults of a source text

Everything that can be wrong with the text of a handler, from single tokens up to the members of
the property literal. A fault says what is wrong, a `SyntaxError` says where, and `Fault.message`
is the only place that holds the wording.
-/

namespace Reclass

/-- The three pairs of delimiters. -/
inductive Bracket where
  | round
  | square
  | curly
  deriving DecidableEq, Repr

namespace Bracket

/-- The character that opens a group. -/
def opener : Bracket → Char
  | .round => '('
  | .square => '['
  | .curly => '\x7b'

/-- The character that closes a group. -/
def closer : Bracket → Char
  | .round => ')'
  | .square => ']'
  | .curly => '\x7d'

end Bracket

/-- What is wrong with a source text. -/
inductive Fault where
  /-- A block comment without its end. -/
  | unterminatedComment
  /-- A quoted string without its closing quote on the same line. -/
  | unterminatedString
  /-- A template without its closing quote. -/
  | unterminatedTemplate
  /-- A substitution of a template without its closing brace. -/
  | unterminatedSubstitution
  /-- A regular expression without its closing slash on the same line. -/
  | unterminatedRegex
  /-- A group is asked for where none opens. -/
  | notAnOpener
  /-- A group is closed by the delimiter of another pair. -/
  | mismatched (opened closed : Bracket)
  /-- A group is never closed. -/
  | unclosed
  /-- A registration without any argument. -/
  | missingName (kind : HandlerKind)
  /-- The name of a handler is no string. -/
  | nameNotString (kind : HandlerKind) (found : String)
  /-- The name is followed by the end of the text, or by something that is no comma. -/
  | missingComma (found : Option String)
  /-- The text ends before the property literal. -/
  | missingLiteral
  /-- The second argument is no property literal. -/
  | notALiteral (found : String)
  /-- The text ends inside the registration. -/
  | unterminatedCall
  /-- Something else than a comma or the end of the registration follows the literal. -/
  | afterLiteral (found : String)
  /-- The name of the parent is no string. -/
  | parentNotString (found : String)
  /-- A further argument follows the name of the parent. -/
  | extraArgument (found : String)
  /-- A comma without a member before it. -/
  | emptyMember
  /-- A method takes the name of the constructor. -/
  | constructorMethod
  /-- A member that spreads another object. -/
  | spreadMember
  /-- A member whose key is computed. -/
  | computedKey
  /-- A method without a name. -/
  | missingMethodName
  /-- A member without a value. -/
  | missingValue (key : String)
  /-- A key that is not followed by a colon. -/
  | missingColon (key found : String)
  /-- A token that cannot be a key. -/
  | notAKey (found : String)
  /-- A method without a parameter list. -/
  | missingParameters
  /-- A method without a body. -/
  | missingBody
  /-- Something follows the body of a method. -/
  | afterMethod (key : String)
  /-- An arrow without a body. -/
  | missingArrowBody
  deriving DecidableEq, Repr

private def quoted (text : String) : String := "'" ++ text ++ "'"

/-- The wording of each fault. -/
def Fault.message : Fault → String
  | .unterminatedComment => "unterminated block comment"
  | .unterminatedString => "unterminated string literal"
  | .unterminatedTemplate => "unterminated template literal"
  | .unterminatedSubstitution => "unterminated template substitution"
  | .unterminatedRegex => "unterminated regular expression"
  | .notAnOpener => "expected an opening delimiter"
  | .mismatched opened closed =>
    "mismatched delimiter: " ++ quoted opened.opener.toString ++ " closed by " ++
      quoted closed.closer.toString
  | .unclosed => "unclosed delimiter"
  | .missingName kind =>
    "expected the " ++ kind.word ++ " name after " ++ quoted (kind.factory ++ "(")
  | .nameNotString kind found =>
    kind.word ++ " name must be a string literal, found " ++ quoted found
  | .missingComma none => "expected ',' after the name"
  | .missingComma (some found) => "expected ',' after the name, found " ++ quoted found
  | .missingLiteral => "expected the property literal"
  | .notALiteral found => "expected '\x7b' to open the property literal, found " ++ quoted found
  | .unterminatedCall => "unterminated factory call"
  | .afterLiteral found => "expected ',' or ')' after the property literal, found " ++ quoted found
  | .parentNotString found => "parent must be a string literal, found " ++ quoted found
  | .extraArgument found => "unexpected argument " ++ quoted found ++ " after the parent name"
  | .emptyMember => "unexpected ','"
  | .constructorMethod => "a 'constructor' method collides with the generated constructor"
  | .spreadMember => "spread members are not supported"
  | .computedKey => "computed property keys are not supported"
  | .missingMethodName => "expected a method name"
  | .missingValue key => "missing value for property " ++ key
  | .missingColon key found =>
    "expected ':' after property key " ++ key ++ ", found " ++ quoted found
  | .notAKey found => "unexpected " ++ quoted found ++ " where a property key was expected"
  | .missingParameters => "expected '(' to open a parameter list"
  | .missingBody => "expected '\x7b' to open a method body"
  | .afterMethod key => "unexpected tokens after method " ++ key
  | .missingArrowBody => "missing arrow function body"

/-- A fault and the byte offset at which it was found. -/
structure SyntaxError where
  fault : Fault
  offset : Nat
  deriving DecidableEq, Repr

end Reclass
