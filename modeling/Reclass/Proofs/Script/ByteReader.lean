import Reclass.Proofs.Text.Bytes
import Reclass.Script.Stream

/-!
# Reading tokens byte by byte

A reader that holds nothing but an offset into the bytes of a script and the last token it gave. It
looks at single bytes, steps over them without regard to characters, and cuts pieces out of the
script where it needs their text. A cut that is not between two characters of the script stops it,
and so does the end of its steps, of which every call takes some.
-/

namespace Reclass.Script

open Text

/-- Why a reader stops. -/
inductive Halt where
  | fault (e : SyntaxError)
  /-- A piece is cut out of the script that it does not have. -/
  | outOfRange
  | outOfSteps
  deriving DecidableEq, Repr

/-- A token as a piece of a script, from its first byte to the end of its last one. -/
structure Extent where
  kind : TokenKind
  start : Nat
  stop : Nat
  deriving DecidableEq, Repr

/-- The piece of the script that a token is. -/
def Extent.ofToken (t : Token) : Extent := ⟨t.kind, t.start, t.stop⟩

/-- The text of the piece, cut out of the script. -/
def Extent.text? (source : List Char) (t : Extent) : Option (List Char) :=
  slice? source t.start t.stop

/-- What a reader holds: the offset it has reached, and the last token. -/
structure Head where
  pos : Nat
  last : Option Extent
  deriving DecidableEq, Repr

namespace ByteReader

/-! ### Bytes -/

/-- A digit is a byte of ASCII. -/
def isDigitUnit : CodeUnit → Bool
  | .ascii c => c.isDigit
  | .part => false

/-- A name may start with every byte beyond ASCII. -/
def isNameStartUnit : CodeUnit → Bool
  | .ascii c => isNameStart c
  | .part => true

/-- A name may go on with every byte beyond ASCII. -/
def isNamePartUnit : CodeUnit → Bool
  | .ascii c => isNamePart c
  | .part => true

variable (source : List Char)

/-! ### Gaps -/

/-- Goes behind the line feed that ends a line, or to the end of the script. -/
def lineEnd (pos : Nat) : Except (Halt × Nat) Nat :=
  match tailFrom? pos source with
  | none => .error (.outOfRange, pos)
  | some s =>
    if '\n' ∈ s then .ok (pos + byteLength (s.takeWhile (· != '\n')) + 1)
    else .ok (byteLength source)

/-- Behind a line there is less of the script. -/
theorem lineEnd_eq_ok {source : List Char} {pos after : Nat} (h : lineEnd source pos = .ok after) :
    pos < after ∨ after = byteLength source := by
  unfold lineEnd at h
  split at h
  · cases h
  · split at h
    · cases h
      omega
    · cases h
      exact .inr rfl

/-- Skips what only the start of a script may hold. -/
def leadEnd (pos : Nat) : Except (Halt × Nat) Nat :=
  if pos ≠ 0 then .ok pos
  else
    let pos := if source.head? = some '\ufeff' then '\ufeff'.utf8Size else 0
    match tailFrom? pos source with
    | none => .error (.outOfRange, pos)
    | some s => if ['#', '!'].isPrefixOf s then lineEnd source pos else .ok pos

/-- Skips white space and comments. -/
def gapEnd (pos : Nat) : Except (Halt × Nat) Nat :=
  match _h : unitAt source pos with
  | none => .ok pos
  | some .part =>
    match tailFrom? pos source with
    | none => .error (.outOfRange, pos)
    | some [] => .ok pos
    | some (c :: _) => if isSpace c then gapEnd (pos + c.utf8Size) else .ok pos
  | some (.ascii c) =>
    if isSpace c then gapEnd (pos + 1)
    else if c = '/' ∧ unitAt source (pos + 1) = some (.ascii '/') then
      match _hline : lineEnd source pos with
      | .error stopped => .error stopped
      | .ok after => gapEnd after
    else if c = '/' ∧ unitAt source (pos + 1) = some (.ascii '*') then
      match tailFrom? (pos + 2) source with
      | none => .error (.outOfRange, pos)
      | some s =>
        match commentTail s with
        | none => .error (.fault ⟨.unterminatedComment, pos⟩, pos)
        | some (text, _) => gapEnd (pos + 2 + byteLength text)
    else .ok pos
termination_by byteLength source - pos
decreasing_by
  all_goals have hlt := lt_byteLength_of_unitAt _h
  · have hpos := Char.utf8Size_pos c
    omega
  · omega
  · have hafter := lineEnd_eq_ok _hline
    omega
  · omega

/-! ### Tokens that nest nothing -/

/-- Goes behind the quote that closes a string, from somewhere inside of it. `start` is where the
string starts. -/
def stringEnd (quote : Char) (start pos : Nat) : Except (Halt × Nat) Nat :=
  match _h : unitAt source pos with
  | none => .error (.fault ⟨.unterminatedString, start⟩, pos)
  | some u =>
    if u = .ascii '\n' then .error (.fault ⟨.unterminatedString, start⟩, pos)
    else if u = .ascii '\\' then stringEnd quote start (pos + 2)
    else if u = .ascii quote then .ok (pos + 1)
    else stringEnd quote start (pos + 1)
termination_by byteLength source - pos
decreasing_by
  all_goals
    have hlt := lt_byteLength_of_unitAt _h
    omega

/-- Goes behind the flags of a regular expression. -/
def flagsEnd (pos : Nat) : Nat :=
  match _h : unitAt source pos with
  | none => pos
  | some u => if isNamePartUnit u then flagsEnd (pos + 1) else pos
termination_by byteLength source - pos
decreasing_by
  have hlt := lt_byteLength_of_unitAt _h
  omega

/-- Goes behind a regular expression, from somewhere inside of it. -/
def regexEnd (start : Nat) (inClass : Bool) (pos : Nat) : Except (Halt × Nat) Nat :=
  match _h : unitAt source pos with
  | none => .error (.fault ⟨.unterminatedRegex, start⟩, pos)
  | some u =>
    if u = .ascii '\n' then .error (.fault ⟨.unterminatedRegex, start⟩, pos)
    else if u = .ascii '\\' then regexEnd start inClass (pos + 2)
    else if u = .ascii '[' then regexEnd start true (pos + 1)
    else if u = .ascii ']' then regexEnd start false (pos + 1)
    else if u = .ascii '/' ∧ inClass = false then .ok (flagsEnd source (pos + 1))
    else regexEnd start inClass (pos + 1)
termination_by byteLength source - pos
decreasing_by
  all_goals
    have hlt := lt_byteLength_of_unitAt _h
    omega

/-- Whether the byte is a sign behind the letter of an exponent, for which the byte in front of it
is looked at. -/
def isExponentSign (hex : Bool) (pos : Nat) (u : CodeUnit) : Except (Halt × Nat) Bool :=
  if (u = .ascii '+' ∨ u = .ascii '-') ∧ hex = false then
    match pos with
    | 0 => .error (.outOfRange, 0)
    | before + 1 =>
      match unitAt source before with
      | none => .error (.outOfRange, before + 1)
      | some u => .ok (u = .ascii 'e' ∨ u = .ascii 'E')
  else .ok false

/-- Whether a number goes on with the byte, be it a sign or not. -/
def continuesNumber (u : CodeUnit) (exponentSign : Bool) : Bool :=
  match u with
  | .ascii c => c.isAlphanum || c == '_' || c == '.' || exponentSign
  | .part => exponentSign

/-- Goes behind a number, from somewhere inside of it. -/
def numberEnd (hex : Bool) (pos : Nat) : Except (Halt × Nat) Nat :=
  match _h : unitAt source pos with
  | none => .ok pos
  | some u =>
    match isExponentSign source hex pos u with
    | .error stopped => .error stopped
    | .ok exponentSign =>
      if continuesNumber u exponentSign then numberEnd hex (pos + 1) else .ok pos
termination_by byteLength source - pos
decreasing_by
  have hlt := lt_byteLength_of_unitAt _h
  omega

/-- Whether a hexadecimal number starts. -/
def isHexAt (pos : Nat) : Except (Halt × Nat) Bool :=
  match tailFrom? pos source with
  | none => .error (.outOfRange, pos)
  | some s => .ok (['0', 'x'].isPrefixOf s || ['0', 'X'].isPrefixOf s)

/-- A text that starts at an offset ends behind it, or there is nothing of it. -/
theorem lt_byteLength_of_tailFrom? {source s : List Char} {pos : Nat} {c : Char}
    (h : tailFrom? pos source = some (c :: s)) : pos < byteLength source := by
  fun_induction tailFrom? pos source with
  | case1 => simp at h
  | case2 => simp at h
  | case3 d t =>
    exact byteLength_pos (by simp)
  | case4 pos d t hpos hle ih =>
    have hlt := ih h
    rw [byteLength]
    omega
  | case5 => simp at h

/-- Goes behind a name, character by character. -/
def nameEnd (pos : Nat) : Except (Halt × Nat) Nat :=
  match _h : tailFrom? pos source with
  | none => .error (.outOfRange, pos)
  | some [] => .ok pos
  | some (c :: _) => if continuesName c then nameEnd (pos + c.utf8Size) else .ok pos
termination_by byteLength source - pos
decreasing_by
  have hlt := lt_byteLength_of_tailFrom? _h
  have hpos := Char.utf8Size_pos c
  omega

/-- Goes behind a punctuation. -/
def punctuationEnd (pos : Nat) : Except (Halt × Nat) Nat :=
  match tailFrom? pos source with
  | none => .error (.outOfRange, pos)
  | some s =>
    if ['.', '.', '.'].isPrefixOf s then .ok (pos + 3)
    else if ['=', '>'].isPrefixOf s then .ok (pos + 2)
    else .ok (pos + 1)

/-- Whether a slash starts a regular expression behind the last token, whose text is cut out for
it. -/
def regexAllowed (last : Option Extent) : Except Halt Bool :=
  match last with
  | none => .ok true
  | some t =>
    match t.text? source with
    | none => .error .outOfRange
    | some text => .ok (opensRegex t.kind text)

/-- Whether the token that starts with a byte is a regular expression. Only at a slash the last
token is looked at. -/
def isRegexAt (last : Option Extent) (start : Nat) (u : CodeUnit) : Except (Halt × Nat) Bool :=
  if u = .ascii '/' then (regexAllowed source last).mapError (·, start) else .ok false

/-- The kind of the token that starts with a byte, and where it ends. A template is none of them. -/
def plainEnd (last : Option Extent) (start : Nat) (u : CodeUnit) :
    Except (Halt × Nat) (TokenKind × Nat) :=
  if u = .ascii '"' then (stringEnd source '"' start (start + 1)).map (.str, ·)
  else if u = .ascii '\'' then (stringEnd source '\'' start (start + 1)).map (.str, ·)
  else do
    let isRegex ← isRegexAt source last start u
    if isRegex then (regexEnd source start false (start + 1)).map (.regex, ·)
    else if isDigitUnit u ∨ (u = .ascii '.' ∧ (unitAt source (start + 1)).any isDigitUnit) then do
      let hex ← isHexAt source start
      (numberEnd source hex start).map (.number, ·)
    else if isNameStartUnit u then (nameEnd source start).map (.ident, ·)
    else (punctuationEnd source start).map (.punct, ·)

/-! ### Tokens -/

/-- Whether a token is a punctuation of one character, which only the text of a punctuation is cut
out for. -/
def isPunct (t : Extent) (c : Char) : Except Halt Bool :=
  if t.kind = .punct then
    match t.text? source with
    | none => .error .outOfRange
    | some text => .ok (text = [c])
  else .ok false

/-- How many braces are open behind a token of a substitution; none is asked for behind the brace
that closes it. -/
def depthBehind (t : Extent) (depth : Nat) : Except Halt (Option Nat) := do
  if ← isPunct source t '\x7b' then return some (depth + 1)
  else if ← isPunct source t '\x7d' then
    match depth with
    | 0 => return none
    | depth + 1 => return some depth
  else return some depth

/-- A reader that stops leaves the last token as it was. -/
def move {α : Type} (last : Option Extent) (outcome : Except (Halt × Nat) α) :
    Except (Halt × Head) α :=
  outcome.mapError fun (halt, pos) => (halt, ⟨pos, last⟩)

mutual

/-- Reads the next token, and goes behind it. -/
def nextToken (steps : Nat) (head : Head) : Except (Halt × Head) (Option Extent × Head) :=
  match steps with
  | 0 => .error (.outOfSteps, head)
  | steps + 1 => do
    let start ← move head.last (leadEnd source head.pos >>= gapEnd source)
    match unitAt source start with
    | none => return (none, ⟨start, head.last⟩)
    | some u =>
      let reached :=
        if u = .ascii '\x60' then
          (templateEnd steps start ⟨start + 1, head.last⟩).map fun head => (.template, head.pos)
        else move head.last (plainEnd source head.last start u)
      let (kind, stop) ← reached
      return (some ⟨kind, start, stop⟩, ⟨stop, some ⟨kind, start, stop⟩⟩)
termination_by structural steps

/-- Goes behind the quote that closes a template, from somewhere inside of it. `start` is where the
template starts. -/
def templateEnd (steps start : Nat) (head : Head) : Except (Halt × Head) Head :=
  match steps with
  | 0 => .error (.outOfSteps, head)
  | steps + 1 =>
    match unitAt source head.pos with
    | none => .error (.fault ⟨.unterminatedTemplate, start⟩, head)
    | some u =>
      if u = .ascii '\\' then templateEnd steps start ⟨head.pos + 2, head.last⟩
      else if u = .ascii '\x60' then .ok ⟨head.pos + 1, head.last⟩
      else if u = .ascii '$' ∧ unitAt source (head.pos + 1) = some (.ascii '\x7b') then do
        let head ← substitutionEnd steps start 0 ⟨head.pos + 2, none⟩
        templateEnd steps start head
      else templateEnd steps start ⟨head.pos + 1, head.last⟩
termination_by structural steps

/-- Goes behind the brace that closes a substitution, token by token; `depth` braces are open inside
it. -/
def substitutionEnd (steps start depth : Nat) (head : Head) : Except (Halt × Head) Head :=
  match steps with
  | 0 => .error (.outOfSteps, head)
  | steps + 1 => do
    let (token?, head) ← nextToken steps head
    match token? with
    | none => .error (.fault ⟨.unterminatedSubstitution, start⟩, head)
    | some t =>
      match ← (depthBehind source t depth).mapError (·, head) with
      | none => return head
      | some depth => substitutionEnd steps start depth head
termination_by structural steps

end

/-- What comes of some calls of one reader, one after the other, whatever came of those before. Each
of them may take the given number of steps. -/
def calls (steps : Nat) : Nat → Head → List (Except Halt (Option Extent))
  | 0, _ => []
  | n + 1, head =>
    match nextToken source steps head with
    | .ok (token?, head) => .ok token? :: calls steps n head
    | .error (halt, head) => .error halt :: calls steps n head

end ByteReader

end Reclass.Script
