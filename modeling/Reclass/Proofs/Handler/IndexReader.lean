import Reclass.Proofs.Handler.Slots
import Reclass.Proofs.Script.ByteReader
import Reclass.Handler.Literal

/-!
# Reading members by index

A reader of the members of a property literal that looks at the tokens by their indices, and that
knows of a token only where it starts and where it ends: all texts are cut out of the script. An
index that is not in a list of tokens, a piece that a list or the script does not have, and a number
below zero stop the reader.
-/

namespace Reclass

open Script Text

namespace IndexReader

/-- Why a reader of members stops. -/
inductive Halt where
  | fault (e : SyntaxError)
  /-- Something is taken out of a list or of the script that it does not have. -/
  | outOfRange
  /-- A closing delimiter is met while no group is open. -/
  | unexpected (t : Extent)

/-- Takes what has to be there. -/
def present {α : Type} : Option α → Except Halt α
  | some a => .ok a
  | none => .error .outOfRange

/-! ### Tokens by their indices -/

/-- The token at an index. -/
def tokenAt (tokens : List Extent) (index : Nat) : Except Halt Extent := present tokens[index]?

/-- The last index of a list that is not empty. -/
def lastIndex (tokens : List Extent) : Except Halt Nat :=
  if tokens.length = 0 then .error .outOfRange else .ok (tokens.length - 1)

/-- The last one of some tokens. -/
def lastOf (tokens : List Extent) : Except Halt Extent := lastIndex tokens >>= tokenAt tokens

/-- The tokens from one index up to another. -/
def part (tokens : List Extent) (start stop : Nat) : Except Halt (List Extent) :=
  if start ≤ stop ∧ stop ≤ tokens.length then .ok (tokens.extract start stop)
  else .error .outOfRange

/-- Where a token starts; behind the last one, where that ends. -/
def placeAt (tokens : List Extent) (index : Nat) : Except Halt Nat := do
  let last ← lastOf tokens
  return (tokens[index]?.map Extent.start).getD last.stop

/-- Asks about the token at an index, when there is one. -/
def testAt (test : Extent → Except Halt Bool) (tokens : List Extent) (index : Nat) :
    Except Halt Bool :=
  match tokens[index]? with
  | some t => test t
  | none => .ok false

variable (source : List Char)

/-! ### Texts -/

/-- The text of a token. -/
def textOf (t : Extent) : Except Halt (List Char) := present (t.text? source)

/-- The text of the script between two offsets. -/
def cut (start stop : Nat) : Except Halt String :=
  (present (slice? source start stop)).map String.ofList

/-- Whether a token is of a kind and has a text. Only for a token of this kind the text is cut
out. -/
def isA (kind : TokenKind) (text : String) (t : Extent) : Except Halt Bool :=
  if t.kind = kind then (textOf source t).map (· == text.toList) else .ok false

/-- The pair of which a token is one of the delimiters. -/
def pairOf (delimiter : Bracket → Char) (t : Extent) : Except Halt (Option Bracket) :=
  if t.kind = .punct then
    (textOf source t).map fun text => Bracket.all.find? fun b => text == [delimiter b]
  else .ok none

/-- The text between the quotes of a literal. -/
def insideOf (text : List Char) : Except Halt (List Char) :=
  if byteLength text = 0 then .error .outOfRange
  else present (slice? text 1 (byteLength text - 1))

/-! ### Groups -/

/-- Goes on with the tokens from `index` on, while the groups on the stack are open. -/
def followOnStack : List (Bracket × Nat) → Nat → List Extent → Except Halt Nat
  | stack, _, [] => .error (.fault ⟨.unclosed, (stack.head?.map Prod.snd).getD 0⟩)
  | stack, index, t :: rest => do
    match ← pairOf source Bracket.opener t, ← pairOf source Bracket.closer t, stack with
    | some b, _, stack => followOnStack ((b, t.start) :: stack) (index + 1) rest
    | none, none, stack => followOnStack stack (index + 1) rest
    | none, some _, [] => .error (.unexpected t)
    | none, some b, innermost :: stack =>
      if innermost.1 ≠ b then .error (.fault ⟨.mismatched innermost.1 b, t.start⟩)
      else if stack = [] then .ok index
      else followOnStack stack (index + 1) rest

/-- The index of the delimiter that closes the group which the token at an index opens. -/
def matchingIndex (tokens : List Extent) (index : Nat) : Except Halt Nat :=
  match tokens[index]? with
  | none => .error (.fault ⟨.notAnOpener, byteLength source⟩)
  | some t => do
    match ← pairOf source Bracket.opener t with
    | none => .error (.fault ⟨.notAnOpener, t.start⟩)
    | some _ => followOnStack source [] index (tokens.drop index)

/-- Finds the first comma outside of all groups, while `depth` groups are open; `index` is that of
the first of the tokens. -/
def commaFrom (depth index : Nat) : List Extent → Except Halt Nat
  | [] => .ok index
  | t :: rest => do
    match ← pairOf source Bracket.opener t, ← pairOf source Bracket.closer t with
    | some _, _ => commaFrom (depth + 1) (index + 1) rest
    | none, some _ => commaFrom (depth - 1) (index + 1) rest
    | none, none =>
      let isComma ← isA source .punct "," t
      if depth = 0 ∧ isComma then return index else commaFrom depth (index + 1) rest

/-! ### Members -/

/-- Reads a token as the key of a member. -/
def readKey (t : Extent) : Except Halt PropertyKey := do
  let text ← textOf source t
  let raw := String.ofList text
  match t.kind with
  | .ident => return ⟨raw, raw, .ident⟩
  | .number => return ⟨raw, raw, .number⟩
  | .str => return ⟨raw, String.ofList (unescape (← insideOf text)), .str⟩
  | _ => .error (.fault ⟨.notAKey raw, t.start⟩)

/-- Reads a parameter list and a block from an index on. The answer has the index of the brace that
closes the block. -/
def readSignature (tokens : List Extent) (index : Nat) : Except Halt (String × String × Nat) := do
  if !(← testAt (isA source .punct "(") tokens index) then
    .error (.fault ⟨.missingParameters, ← placeAt tokens index⟩)
  else do
    let paramsClose ← matchingIndex source tokens index
    if !(← testAt (isA source .punct "\x7b") tokens (paramsClose + 1)) then
      .error (.fault ⟨.missingBody, ← placeAt tokens (paramsClose + 1)⟩)
    else do
      let bodyClose ← matchingIndex source tokens (paramsClose + 1)
      let p ← tokenAt tokens index
      let p' ← tokenAt tokens paramsClose
      let params ← cut source p.start p'.stop
      let b ← tokenAt tokens (paramsClose + 1)
      let b' ← tokenAt tokens bodyClose
      let body ← cut source b.start b'.stop
      return (params, body, bodyClose)

/-- Reads a method that is written without a colon, the key of which is at an index. -/
def readShorthand (tokens : List Extent) (keyIndex : Nat) (modifier : Modifier) :
    Except Halt Member :=
  match tokens[keyIndex]? with
  | none => do .error (.fault ⟨.missingMethodName, (← lastOf tokens).stop⟩)
  | some keyToken => do
    let key ← readKey source keyToken
    let (params, body, bodyClose) ← readSignature source tokens (keyIndex + 1)
    if bodyClose ≠ (← lastIndex tokens) then
      .error (.fault ⟨.afterMethod key.raw, (← tokenAt tokens (bodyClose + 1)).start⟩)
    else do
      let first ← tokenAt tokens 0
      let last ← lastOf tokens
      let text ← cut source first.start last.stop
      return ⟨key, some ⟨modifier, params, body, false⟩, text, keyToken.start⟩

/-- Whether a value starts with `async function`. -/
def isAsyncFunction (value : List Extent) : Except Halt Bool := do
  if ← isA source .ident "async" (← tokenAt value 0) then
    testAt (isA source .ident "function") value 1
  else return false

/-- The index behind an optional token, and whether it is there. -/
def skipAt (test : Extent → Except Halt Bool) (tokens : List Extent) (index : Nat) :
    Except Halt (Bool × Nat) := do
  if ← testAt test tokens index then return (true, index + 1) else return (false, index)

/-- Reads a value that is one function expression. -/
def readFunction? (value : List Extent) : Except Halt (Option Method) := do
  let isAsync ← isAsyncFunction source value
  let index := if isAsync then 1 else 0
  if !(← isA source .ident "function" (← tokenAt value index)) then return none
  else do
    let (isGenerator, index) ← skipAt (isA source .punct "*") value (index + 1)
    let (_, index) ← skipAt (fun t => .ok (t.kind == .ident)) value index
    let (params, body, bodyClose) ← readSignature source value index
    if bodyClose ≠ (← lastIndex value) then return none
    else return some ⟨Member.functionModifier isAsync isGenerator, params, body, false⟩

/-- Whether a body starts with a brace and the group that it opens is all of it. -/
def isBlock (body : List Extent) (head : Extent) : Except Halt Bool := do
  if ← isA source .punct "\x7b" head then
    return (← matchingIndex source body 0) = (← lastIndex body)
  else return false

/-- Reads an arrow at an index, and its body. -/
def readArrowBody? (modifier : Modifier) (params : String) (value : List Extent) (index : Nat) :
    Except Halt (Option Method) := do
  if !(← testAt (isA source .punct "=>") value index) then return none
  else do
    let body ← part value (index + 1) value.length
    match body with
    | [] => .error (.fault ⟨.missingArrowBody, (← tokenAt value index).stop⟩)
    | head :: _ => do
      let tail ← lastOf body
      let block ← isBlock source body head
      let text ← cut source head.start tail.stop
      return some ⟨modifier, params, text, !block⟩

/-- Whether `async` stands before an arrow function: at least two other tokens follow it. -/
def isAsyncArrow (value : List Extent) : Except Halt Bool := do
  let isAsync ← isA source .ident "async" (← tokenAt value 0)
  return isAsync && decide (2 < value.length)

/-- Reads a value that is one arrow function. -/
def readArrow? (value : List Extent) : Except Halt (Option Method) := do
  let isAsync ← isAsyncArrow source value
  let index := if isAsync then 1 else 0
  let modifier := Member.functionModifier isAsync false
  let p ← tokenAt value index
  if ← isA source .punct "(" p then do
    let close ← matchingIndex source value index
    let params ← cut source p.start (← tokenAt value close).stop
    readArrowBody? source modifier params value (close + 1)
  else if p.kind = .ident then do
    let params := "(" ++ String.ofList (← textOf source p) ++ ")"
    readArrowBody? source modifier params value (index + 1)
  else return none

/-- Reads a value as a method, when it is a function. -/
def readMethod? (value : List Extent) : Except Halt (Option Method) := do
  match ← readFunction? source value with
  | some method => return some method
  | none => readArrow? source value

/-- Reads a member that starts with its key. -/
def readPlain (tokens : List Extent) (first : Extent) : Except Halt Member := do
  let key ← readKey source first
  match tokens[1]? with
  | none =>
    if key.form = .ident then return ⟨key, none, key.raw, first.start⟩
    else .error (.fault ⟨.missingValue key.raw, first.stop⟩)
  | some t =>
    if ← isA source .punct ":" t then do
      let value ← part tokens 2 tokens.length
      match value with
      | [] => .error (.fault ⟨.missingValue key.raw, t.stop⟩)
      | head :: _ => do
        let method ← readMethod? source value
        let tail ← lastOf value
        let text ← cut source head.start tail.stop
        return ⟨key, method, text, first.start⟩
    else if ← isA source .punct "(" t then readShorthand source tokens 0 .plain
    else .error (.fault ⟨.missingColon key.raw (String.ofList (← textOf source t)), t.start⟩)

/-- The modifier that the first of at least three tokens is, when a key follows it. -/
def modifierAt (tokens : List Extent) (first : Extent) : Except Halt (Option Modifier) :=
  if first.kind = .ident ∧ 2 < tokens.length then do
    let second ← tokenAt tokens 1
    if second.kind = .ident ∨ second.kind = .str ∨ second.kind = .number then do
      let text ← textOf source first
      if text = "get".toList then return some .getter
      else if text = "set".toList then return some .setter
      else if text = "async".toList then return some .async
      else return none
    else return none
  else return none

/-- Whether a star follows the word `async`. -/
def isAsyncGenerator (tokens : List Extent) (first : Extent) : Except Halt Bool := do
  if ← isA source .ident "async" first then testAt (isA source .punct "*") tokens 1
  else return false

/-- Reads one member from its tokens. -/
def read (tokens : List Extent) : Except Halt Member := do
  let first ← tokenAt tokens 0
  if ← isA source .punct "..." first then .error (.fault ⟨.spreadMember, first.start⟩)
  else if ← isA source .punct "[" first then .error (.fault ⟨.computedKey, first.start⟩)
  else if ← isA source .punct "*" first then readShorthand source tokens 1 .generator
  else do
    match ← modifierAt source tokens first with
    | some modifier => readShorthand source tokens 1 modifier
    | none =>
      if ← isAsyncGenerator source tokens first then
        readShorthand source tokens 2 .asyncGenerator
      else readPlain source tokens first

/-! ### The members of a literal -/

/-- Adds a member to the table of slots, where all places that it takes have to be. -/
def insert (new : Member) (table : Member.SlotTable) : Except Halt Member.SlotTable :=
  if ∀ place ∈ (Member.SlotTable.remove table.positions new.replaces).1,
      place < table.entries.length then .ok (table.insert new)
  else .error .outOfRange

/-- A comma is not found before the first token. -/
theorem le_of_commaFrom {source : List Char} {depth index stop : Nat} {tokens : List Extent}
    (h : commaFrom source depth index tokens = .ok stop) : index ≤ stop := by
  induction tokens generalizing depth index with
  | nil =>
    cases h
    exact Nat.le_refl _
  | cons t rest ih =>
    obtain ⟨opens, -, h⟩ := Except.bind_eq_ok_iff.mp h
    obtain ⟨closes, -, h⟩ := Except.bind_eq_ok_iff.mp h
    cases opens with
    | some b => exact Nat.le_of_succ_le (ih h)
    | none =>
      cases closes with
      | some b => exact Nat.le_of_succ_le (ih h)
      | none =>
        obtain ⟨isComma, -, h⟩ := Except.bind_eq_ok_iff.mp h
        split at h
        · cases h
          exact Nat.le_refl _
        · exact Nat.le_of_succ_le (ih h)

/-- Reads the members from an index on. -/
def readFrom (body : List Extent) (index : Nat) (table : Member.SlotTable) :
    Except Halt (List Member) :=
  if _hlt : index < body.length then
    match _h : commaFrom source 0 index (body.drop index) with
    | .error halt => .error halt
    | .ok stop => do
      let tokens ← part body index stop
      if tokens = [] then .error (.fault ⟨.emptyMember, (← tokenAt body index).start⟩)
      else do
        let m ← read source tokens
        if m.key.name = "constructor" ∧ m.isMethod then
          .error (.fault ⟨.constructorMethod, m.offset⟩)
        else do
          let table ← insert m table
          readFrom body (stop + 1) table
  else .ok table.live
termination_by body.length - index
decreasing_by
  have hle := le_of_commaFrom _h
  omega

/-- The members of a property literal, from the tokens inside its braces. -/
def members (body : List Extent) : Except Halt (List Member) := readFrom source body 0 .empty

end IndexReader

end Reclass
