import Reclass.Script.Lexeme

/-!
# JSON

A strict reader for JSON texts: one value, nothing behind it, and no other form than the standard
allows. A string may hold escapes that spell half a surrogate pair; such a string is well formed
but stands for no text. A record is read from an object, or from an array of its fields in order.
-/

namespace Reclass

/-- A JSON value. Numbers are not kept apart, since no record holds one. -/
inductive Json where
  | null
  | bool (value : Bool)
  | number
  /-- A string, with its text when it stands for one. -/
  | str (text : Option String)
  | arr (items : List Json)
  /-- The fields of an object, in the order in which they are written. -/
  | obj (fields : List (Option String × Json))

namespace Json

/-- The characters that may stand between tokens. -/
def isBlank (c : Char) : Bool := c == ' ' || c == '\t' || c == '\n' || c == '\r'

/-- The value of a hexadecimal digit. -/
def hexDigit? (c : Char) : Option Nat :=
  if c.isDigit then some (c.toNat - '0'.toNat)
  else if 'a' ≤ c ∧ c ≤ 'f' then some (c.toNat - 'a'.toNat + 10)
  else if 'A' ≤ c ∧ c ≤ 'F' then some (c.toNat - 'A'.toNat + 10)
  else none

/-- The number that four hexadecimal digits spell. -/
def hexUnit? (a b c d : Char) : Option Nat := do
  return (((← hexDigit? a) * 16 + (← hexDigit? b)) * 16 + (← hexDigit? c)) * 16 + (← hexDigit? d)

/-- The first half of a surrogate pair. -/
def isHighSurrogate (unit : Nat) : Bool := 0xd800 ≤ unit && unit ≤ 0xdbff

/-- The second half of a surrogate pair. -/
def isLowSurrogate (unit : Nat) : Bool := 0xdc00 ≤ unit && unit ≤ 0xdfff

/-- The character of a surrogate pair. -/
def pairChar (high low : Nat) : Char :=
  Char.ofNat (0x10000 + (high - 0xd800) * 0x400 + (low - 0xdc00))

/-- The character that a letter behind a backslash stands for. -/
def escapedChar? : Char → Option Char
  | '"' => some '"'
  | '\\' => some '\\'
  | '/' => some '/'
  | 'b' => some '\x08'
  | 'f' => some '\x0c'
  | 'n' => some '\n'
  | 'r' => some '\r'
  | 't' => some '\t'
  | _ => none

private def consText (c : Char) : Option (List Char) × List Char → Option (List Char) × List Char
  | (text, rest) => (text.map (c :: ·), rest)

/-- Reads a string behind its opening quote. The text is none when a surrogate stands alone. -/
def readString : List Char → Option (Option (List Char) × List Char)
  | [] => none
  | '"' :: s => some (some [], s)
  | '\\' :: 'u' :: a :: b :: c :: d :: s =>
    match hexUnit? a b c d with
    | none => none
    | some unit =>
      if isHighSurrogate unit then
        match s with
        | '\\' :: 'u' :: e :: f :: g :: h :: s' =>
          match hexUnit? e f g h with
          | none => none
          | some low =>
            if isLowSurrogate low then (readString s').map (consText (pairChar unit low))
            else (readString ('\\' :: 'u' :: e :: f :: g :: h :: s')).map fun (_, rest) =>
              (none, rest)
        | s => (readString s).map fun (_, rest) => (none, rest)
      else if isLowSurrogate unit then (readString s).map fun (_, rest) => (none, rest)
      else (readString s).map (consText (Char.ofNat unit))
  | '\\' :: c :: s => do
    let char ← escapedChar? c
    (readString s).map (consText char)
  | c :: s => if c.toNat < 0x20 then none else (readString s).map (consText c)

/-- Reads digits, at least one. -/
def readDigits (s : List Char) : Option (List Char) :=
  match s with
  | c :: rest => if c.isDigit then some (rest.dropWhile Char.isDigit) else none
  | [] => none

/-- Reads a number: no needless zero at its front, digits on both sides of a point, and digits in
an exponent. -/
def readNumber (s : List Char) : Option (List Char) := do
  let s := match s with
    | '-' :: s => s
    | s => s
  let s ← match s with
    | '0' :: s => some s
    | s => readDigits s
  let s ← match s with
    | '.' :: s => readDigits s
    | s => some s
  match s with
  | 'e' :: '+' :: s | 'e' :: '-' :: s | 'E' :: '+' :: s | 'E' :: '-' :: s => readDigits s
  | 'e' :: s | 'E' :: s => readDigits s
  | s => some s

/-- The text behind the white space at its start. -/
def skipBlank (s : List Char) : List Char := s.dropWhile isBlank

/-- Reads a word that is spelled out. -/
def readWord (word : String) (s : List Char) : Option (List Char) :=
  if word.toList.isPrefixOf s then some (s.drop word.length) else none

mutual

/-- Reads a value, blanks before it included. Every call spends one unit of `fuel`. -/
def readValue : Nat → List Char → Option (Json × List Char)
  | 0, _ => none
  | fuel + 1, s =>
    match skipBlank s with
    | '"' :: s => (readString s).map fun (text, rest) => (.str (text.map String.ofList), rest)
    | '[' :: s =>
      match skipBlank s with
      | ']' :: rest => some (.arr [], rest)
      | s => (readItems fuel s).map fun (items, rest) => (.arr items, rest)
    | '\x7b' :: s =>
      match skipBlank s with
      | '\x7d' :: rest => some (.obj [], rest)
      | s => (readFields fuel s).map fun (fields, rest) => (.obj fields, rest)
    | 'n' :: s => (readWord "ull" s).map (Json.null, ·)
    | 't' :: s => (readWord "rue" s).map (Json.bool true, ·)
    | 'f' :: s => (readWord "alse" s).map (Json.bool false, ·)
    | s => (readNumber s).map (Json.number, ·)

/-- Reads the items of an array up to its end; there is at least one. -/
def readItems : Nat → List Char → Option (List Json × List Char)
  | 0, _ => none
  | fuel + 1, s => do
    let (item, s) ← readValue fuel s
    match skipBlank s with
    | ']' :: rest => some ([item], rest)
    | ',' :: s => (readItems fuel s).map fun (items, rest) => (item :: items, rest)
    | _ => none

/-- Reads the fields of an object up to its end; there is at least one. -/
def readFields : Nat → List Char → Option (List (Option String × Json) × List Char)
  | 0, _ => none
  | fuel + 1, s =>
    match skipBlank s with
    | '"' :: s => do
      let (key, s) ← readString s
      match skipBlank s with
      | ':' :: s =>
        let (value, s) ← readValue fuel s
        let field := (key.map String.ofList, value)
        match skipBlank s with
        | '\x7d' :: rest => some ([field], rest)
        | ',' :: s => (readFields fuel s).map fun (fields, rest) => (field :: fields, rest)
        | _ => none
      | _ => none
    | _ => none

end

/-- Reads a whole text. Each value takes a character at least and is entered by two calls at most,
so the fuel suffices. -/
def parse? (text : String) : Option Json :=
  let s := text.toList
  match readValue (2 * s.length + 2) s with
  | some (value, rest) => if (skipBlank rest).isEmpty then some value else none
  | none => none

/-- The text of a string. -/
def asString? : Json → Option String
  | .str text => text
  | _ => none

/-- The items of an array. -/
def asArray? : Json → Option (List Json)
  | .arr items => some items
  | _ => none

/-- The values of the fields of a record, in the order of `names`. An array lists exactly the
values; in an object every key has to be a text, a field may be missing, none may be written twice,
and those with other names do not count. -/
def record? (names : List String) : Json → Option (List (Option Json))
  | .arr items => if items.length = names.length then some (items.map some) else none
  | .obj fields =>
    if fields.all fun field => field.1.isSome then
      names.mapM fun name =>
        match fields.filter fun field => field.1 == some name with
        | [] => some none
        | [field] => some (some field.2)
        | _ => none
    else none
  | _ => none

end Json

end Reclass
