import Reclass.Handler.Member
import Reclass.Script.Group

/-!
# Property literals

The members of a property literal are read from its tokens. Nothing is evaluated: the texts of
values, parameter lists and bodies are cut out as they are written.
-/

namespace Reclass

open Script

namespace Member

/-- Reads a key from the token that it consists of. -/
def readKey (t : Token) : Except SyntaxError PropertyKey :=
  match t.kind with
  | .ident => .ok ⟨t.word, t.word, .ident⟩
  | .number => .ok ⟨t.word, t.word, .number⟩
  | .str => .ok ⟨t.word, t.textValue?.getD "", .str⟩
  | _ => .error ⟨.notAKey t.word, t.start⟩

/-- Whether a key can consist of the token. -/
def isKeyToken (t : Token) : Bool := t.kind == .ident || t.kind == .str || t.kind == .number

/-- A parameter list and a block as they are written, and the tokens behind them. -/
structure Signature where
  params : String
  body : String
  rest : List Token
  deriving DecidableEq, Repr

/-- Reads a parameter list and a block. `stop` is where the member ends. -/
def readSignature (stop : Nat) (tokens : List Token) : Except SyntaxError Signature :=
  match tokens with
  | [] => .error ⟨.missingParameters, stop⟩
  | p :: rest =>
    if !p.isPunct "(" then .error ⟨.missingParameters, p.start⟩
    else do
      let params ← closeGroup p rest
      match params.rest with
      | [] => throw ⟨.missingBody, stop⟩
      | b :: rest =>
        if !b.isPunct "\x7b" then throw ⟨.missingBody, b.start⟩
        let body ← closeGroup b rest
        return {
          params := String.ofList (Token.span (p :: (params.inside ++ [params.closer])))
          body := String.ofList (Token.span (b :: (body.inside ++ [body.closer])))
          rest := body.rest }

/-- Reads a method that is written without a colon; `tokens` start with its key. `first` and
`others` are all tokens of the member, its modifiers included. -/
def readShorthand (first : Token) (others : List Token) (modifier : Modifier)
    (tokens : List Token) : Except SyntaxError Member :=
  let stop := Token.lastStop first others
  match tokens with
  | [] => .error ⟨.missingMethodName, stop⟩
  | t :: rest => do
    let key ← readKey t
    let signature ← readSignature stop rest
    match signature.rest with
    | extra :: _ => throw ⟨.afterMethod key.raw, extra.start⟩
    | [] =>
      return {
        key := key
        method := some ⟨modifier, signature.params, signature.body, false⟩
        text := String.ofList (Token.span (first :: others))
        offset := t.start }

/-- The tokens behind an optional `async` that stands before the word `function`. -/
def dropAsyncFunction (value : List Token) : Bool × List Token :=
  match value with
  | a :: f :: rest =>
    if a.isIdent "async" && f.isIdent "function" then (true, f :: rest) else (false, value)
  | _ => (false, value)

/-- The tokens behind a first token for which the test holds, and whether there was one. -/
def dropIf (test : Token → Bool) : List Token → Bool × List Token
  | t :: rest => if test t then (true, rest) else (false, t :: rest)
  | [] => (false, [])

/-- The modifier of a function. -/
def functionModifier (isAsync isGenerator : Bool) : Modifier :=
  match isAsync, isGenerator with
  | false, false => .plain
  | true, false => .async
  | false, true => .generator
  | true, true => .asyncGenerator

/-- Reads a value that is one function expression, `async` and a name of its own being optional. A
function with something behind it is another value. -/
def readFunction? (stop : Nat) (value : List Token) : Except SyntaxError (Option Method) :=
  let (isAsync, tokens) := dropAsyncFunction value
  let (isFunction, tokens) := dropIf (·.isIdent "function") tokens
  if !isFunction then .ok none
  else do
    let (isGenerator, tokens) := dropIf (·.isPunct "*") tokens
    let (_, tokens) := dropIf (·.kind == .ident) tokens
    let signature ← readSignature stop tokens
    if signature.rest.isEmpty then
      return some ⟨functionModifier isAsync isGenerator, signature.params, signature.body, false⟩
    else return none

/-- Reads an arrow and its body behind the parameters. -/
def readArrowBody? (modifier : Modifier) (params : String) (tokens : List Token) :
    Except SyntaxError (Option Method) :=
  match tokens with
  | [] => .ok none
  | arrow :: body =>
    if !arrow.isPunct "=>" then .ok none
    else match body with
      | [] => .error ⟨.missingArrowBody, arrow.stop⟩
      | head :: rest => do
        let isBlock ←
          if head.isPunct "\x7b" then (closeGroup head rest).map (·.rest.isEmpty) else pure false
        return some ⟨modifier, params, String.ofList (Token.span body), !isBlock⟩

/-- The tokens behind an optional `async` that stands before an arrow function: at least two others
follow it. -/
def dropAsync (value : List Token) : Bool × List Token :=
  match value with
  | a :: b :: c :: rest =>
    if a.isIdent "async" then (true, b :: c :: rest) else (false, value)
  | _ => (false, value)

/-- Reads a value that is one arrow function; a single parameter needs no parentheses. -/
def readArrow? (value : List Token) : Except SyntaxError (Option Method) :=
  let (isAsync, tokens) := dropAsync value
  let modifier := functionModifier isAsync false
  match tokens with
  | [] => .ok none
  | p :: rest =>
    if p.isPunct "(" then do
      let params ← closeGroup p rest
      let text := String.ofList (Token.span (p :: (params.inside ++ [params.closer])))
      readArrowBody? modifier text params.rest
    else if p.kind = .ident then readArrowBody? modifier ("(" ++ p.word ++ ")") rest
    else .ok none

/-- The method that a value is, if it is one. -/
def readMethod? (stop : Nat) (value : List Token) : Except SyntaxError (Option Method) := do
  match ← readFunction? stop value with
  | some method => return some method
  | none => readArrow? value

/-- The modifier that a word stands for when a key follows it. -/
def modifierOf? (t : Token) : Option Modifier :=
  if t.isIdent "get" then some .getter
  else if t.isIdent "set" then some .setter
  else if t.isIdent "async" then some .async
  else none

/-- Reads what follows a key: nothing, a value behind a colon, or a parameter list. -/
def readPlain (first : Token) (others : List Token) : Except SyntaxError Member := do
  let key ← readKey first
  match others with
  | [] =>
    if key.form = .ident then return ⟨key, none, key.raw, first.start⟩
    else throw ⟨.missingValue key.raw, first.stop⟩
  | t :: value =>
    if t.isPunct ":" then
      if value.isEmpty then throw ⟨.missingValue key.raw, t.stop⟩
      let method ← readMethod? (Token.lastStop t value) value
      return ⟨key, method, String.ofList (Token.span value), first.start⟩
    else if t.isPunct "(" then readShorthand first others .plain (first :: others)
    else throw ⟨.missingColon key.raw t.word, t.start⟩

/-- Reads one member from its tokens, of which `first` is the first. -/
def read (first : Token) (others : List Token) : Except SyntaxError Member :=
  if first.isPunct "..." then .error ⟨.spreadMember, first.start⟩
  else if first.isPunct "[" then .error ⟨.computedKey, first.start⟩
  else if first.isPunct "*" then readShorthand first others .generator others
  else match others with
    | second :: third :: rest =>
      match modifierOf? first, isKeyToken second with
      | some modifier, true => readShorthand first others modifier others
      | _, _ =>
        if first.isIdent "async" && second.isPunct "*" then
          readShorthand first others .asyncGenerator (third :: rest)
        else readPlain first others
    | [second] =>
      if first.isIdent "async" && second.isPunct "*" then
        readShorthand first others .asyncGenerator []
      else readPlain first others
    | [] => readPlain first others

/-- Cuts the tokens at the first comma outside of all groups; `depth` groups are open before them.
The second part starts behind the comma. -/
def cutAtComma (depth : Nat) : List Token → List Token × List Token
  | [] => ([], [])
  | t :: rest =>
    if depth = 0 ∧ t.isPunct "," then ([], rest)
    else
      let depth :=
        if t.opens?.isSome then depth + 1 else if t.closes?.isSome then depth - 1 else depth
      let (segment, after) := cutAtComma depth rest
      (t :: segment, after)

/-- At least one token is cut off. -/
theorem cutAtComma_length (depth : Nat) (t : Token) (rest : List Token) :
    (cutAtComma depth (t :: rest)).2.length < (t :: rest).length := by
  induction rest generalizing depth t with
  | nil =>
    rw [cutAtComma]
    split <;> simp [cutAtComma]
  | cons u rest ih =>
    rw [cutAtComma]
    split
    · simp
    · exact Nat.lt_succ_of_lt (ih _ u)

/-- Adds the members that the tokens hold to those before them. -/
def readAll (before : List Member) (tokens : List Token) : Except SyntaxError (List Member) :=
  match tokens with
  | [] => .ok before
  | t :: rest =>
    match _h : cutAtComma 0 (t :: rest) with
    | ([], _) => .error ⟨.emptyMember, t.start⟩
    | (first :: others, after) => do
      let member ← read first others
      if member.key.name = "constructor" ∧ member.isMethod then
        throw ⟨.constructorMethod, member.offset⟩
      readAll (member.insert before) after
termination_by tokens.length
decreasing_by
  have hlt := cutAtComma_length 0 t rest
  rw [_h] at hlt
  exact hlt

/-- The members of a property literal, from the tokens inside its braces. Of members with the same
name the last one counts, at the place of the first. -/
def ofBody (body : List Token) : Except SyntaxError (List Member) := readAll [] body

end Member

end Reclass
