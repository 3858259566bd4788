import Reclass.Script.Group
import Reclass.Script.Stream

/-!
# Registrations

A handler is registered by a call `NGS.createLoad("name", { … }, "parent")` of the factory of its
kind. The call is looked for among the tokens, so a mention of the factory in a comment or a string
is none; whether a text mentions a factory at all is the cheaper question asked before.
-/

namespace Reclass

open Script

/-- The kind of the factory that a text mentions, be it in code, in a comment or in a string. -/
def HandlerKind.mentionedIn? (source : String) : Option HandlerKind :=
  HandlerKind.all.find? fun kind => Text.occursIn kind.factory.toList source.toList

/-- The call that registers a handler. -/
structure Registration where
  kind : HandlerKind
  /-- The dotted name of the handler. -/
  name : String
  /-- The place of the name. -/
  nameOffset : Nat
  /-- The brace that opens the property literal. -/
  opener : Token
  /-- The tokens inside the property literal. -/
  body : List Token
  /-- The brace that closes the property literal. -/
  closer : Token
  /-- The dotted name of the parent and its place, when one is given. -/
  parent : Option (String × Nat)
  /-- The number of tokens outside the call that are no semicolons. -/
  strayTokens : Nat
  deriving DecidableEq, Repr

namespace Registration

/-- The property literal as it was written, braces included. -/
def literalText (call : Registration) : String :=
  String.ofList (Token.span (call.opener :: (call.body ++ [call.closer])))

/-- A call whose arguments are still to be read: the tokens before it, its kind, and the tokens
behind its opening parenthesis. -/
structure Start where
  before : List Token
  kind : HandlerKind
  arguments : List Token
  deriving DecidableEq, Repr

/-- The kind of handler that four neighbouring tokens start to register. -/
def kindAt? (kinds : List HandlerKind) (a b c d : Token) : Option HandlerKind :=
  if a.isIdent "NGS" && b.isPunct "." && d.isPunct "(" then
    kinds.find? fun kind => c.isIdent kind.factoryMethod
  else none

/-- The first place where a handler of one of the kinds is registered. -/
def findStart? (kinds : List HandlerKind) : List Token → Option Start
  | a :: b :: c :: d :: rest =>
    match kindAt? kinds a b c d with
    | some kind => some ⟨[], kind, rest⟩
    | none => (findStart? kinds (b :: c :: d :: rest)).map fun start =>
        { start with before := a :: start.before }
  | _ => none

/-- Reads the end of the arguments behind the property literal: `)`, `, )`, `, "parent" )` or
`, "parent", )`. The answer is the parent and the tokens behind the call. -/
def readParent (size : Nat) :
    List Token → Except SyntaxError (Option (String × Nat) × List Token)
  | [] => .error ⟨.unterminatedCall, size⟩
  | t :: rest =>
    if t.isPunct ")" then .ok (none, rest)
    else if !t.isPunct "," then .error ⟨.afterLiteral t.word, t.start⟩
    else match rest with
      | [] => .error ⟨.unterminatedCall, size⟩
      | name :: rest =>
        if name.isPunct ")" then .ok (none, rest)
        else match name.textValue? with
          | none => .error ⟨.parentNotString name.word, name.start⟩
          | some parent =>
            let rest := match rest with
              | comma :: rest => if comma.isPunct "," then rest else comma :: rest
              | [] => []
            match rest with
            | [] => .error ⟨.unterminatedCall, size⟩
            | close :: rest =>
              if close.isPunct ")" then .ok (some (parent, name.start), rest)
              else .error ⟨.extraArgument close.word, close.start⟩

/-- The number of tokens that are no semicolons. -/
def countStray (tokens : List Token) : Nat := tokens.countP fun t => !t.isPunct ";"

/-- Reads the arguments of a call from its start. `size` is the length of the source. -/
def read (size : Nat) (start : Start) : Except SyntaxError Registration :=
  match start.arguments with
  | [] => .error ⟨.missingName start.kind, size⟩
  | name :: rest =>
    match name.textValue?, rest with
    | none, _ => .error ⟨.nameNotString start.kind name.word, name.start⟩
    | some _, [] => .error ⟨.missingComma none, size⟩
    | some value, comma :: rest =>
      if !comma.isPunct "," then .error ⟨.missingComma (some comma.word), comma.start⟩
      else match rest with
        | [] => .error ⟨.missingLiteral, size⟩
        | opener :: rest =>
          if !opener.isPunct "\x7b" then .error ⟨.notALiteral opener.word, opener.start⟩
          else do
            let literal ← closeGroup opener rest
            let (parent, after) ← readParent size literal.rest
            return {
              kind := start.kind
              name := value
              nameOffset := name.start
              opener := opener
              body := literal.inside
              closer := literal.closer
              parent := parent
              strayTokens := countStray start.before + countStray after }

/-- The first registration of a handler of one of the kinds; none when code holds none. -/
def find? (kinds : List HandlerKind) (source : String) :
    Except SyntaxError (Option Registration) := do
  let tokens ← tokenize source
  match findStart? kinds tokens with
  | none => return none
  | some start => return some (← read source.utf8ByteSize start)

/-- The first registration of any handler. It is the outermost one, so a registration made inside
of a method stays part of that method. -/
def first? (source : String) : Except SyntaxError (Option Registration) :=
  find? HandlerKind.all source

end Registration

end Reclass
