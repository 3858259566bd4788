import Reclass.Script.Token

/-!
# Groups

A group is a run of tokens between an opening delimiter and the one that closes it. The three pairs
of delimiters are followed together, so that a group closed by the delimiter of another pair is
found out at once.
-/

namespace Reclass

namespace Bracket

/-- The three pairs. -/
def all : List Bracket := [.round, .square, .curly]

end Bracket

namespace Token

/-- The pair whose opening delimiter the token is. -/
def opens? (t : Token) : Option Bracket :=
  if t.kind = .punct then Bracket.all.find? fun b => t.text == [b.opener] else none

/-- The pair whose closing delimiter the token is. -/
def closes? (t : Token) : Option Bracket :=
  if t.kind = .punct then Bracket.all.find? fun b => t.text == [b.closer] else none

end Token

namespace Script

/-- A group without its opening delimiter, and the tokens behind it. -/
structure Closed where
  inside : List Token
  closer : Token
  rest : List Token
  deriving DecidableEq, Repr

/-- The group with one more token in front. -/
def Closed.cons (t : Token) (group : Closed) : Closed := { group with inside := t :: group.inside }

/-- Reads to the end of the group that `opener` opened, inside which the groups of `pending` are
still open, the innermost first. Each is given by its pair and the place where it opened. -/
def closeInside (opener : Bracket × Nat) :
    List (Bracket × Nat) → List Token → Except SyntaxError Closed
  | pending, [] => .error ⟨.unclosed, (pending.head?.getD opener).2⟩
  | pending, t :: rest =>
    match t.opens? with
    | some b => (closeInside opener ((b, t.start) :: pending) rest).map (.cons t)
    | none =>
      match t.closes?, pending with
      | none, pending => (closeInside opener pending rest).map (.cons t)
      | some b, [] =>
        if opener.1 = b then .ok ⟨[], t, rest⟩
        else .error ⟨.mismatched opener.1 b, t.start⟩
      | some b, inner :: pending =>
        if inner.1 = b then (closeInside opener pending rest).map (.cons t)
        else .error ⟨.mismatched inner.1 b, t.start⟩

/-- Reads the group that the token `t` opens, from the tokens behind it. -/
def closeGroup (t : Token) (rest : List Token) : Except SyntaxError Closed :=
  match t.opens? with
  | none => .error ⟨.notAnOpener, t.start⟩
  | some b => closeInside (b, t.start) [] rest

/-- The index of the token that closes the group opened at an index. `size` is the length of the
source, where an index without a token is reported. -/
def matchingIndex (size : Nat) (tokens : List Token) (index : Nat) : Except SyntaxError Nat :=
  match tokens.drop index with
  | [] => .error ⟨.notAnOpener, size⟩
  | t :: rest => (closeGroup t rest).map fun group => index + group.inside.length + 1

end Script

end Reclass
