/-!
# Byte offsets and positions

A place in a text is a number of UTF-8 bytes before it. For people it is written as a line and a
column, both counted from one, where a column is a character.
-/

namespace Reclass.Text

/-- The number of bytes of a text in UTF-8. -/
def byteLength : List Char → Nat
  | [] => 0
  | c :: s => c.utf8Size + byteLength s

/-- The bytes of two texts add up. -/
@[simp] theorem byteLength_append (s t : List Char) :
    byteLength (s ++ t) = byteLength s + byteLength t := by
  induction s with
  | nil => simp [byteLength]
  | cons c s ih => simp [byteLength, ih, Nat.add_assoc]

/-- A text with characters in it has bytes in it. -/
theorem byteLength_pos {s : List Char} (h : s ≠ []) : 0 < byteLength s := by
  obtain ⟨c, s, rfl⟩ := List.exists_cons_of_ne_nil h
  have hpos := Char.utf8Size_pos c
  simp only [byteLength]
  omega

/-- The characters that fill the first `size` bytes, when these end between two characters. -/
def takeBytes? (size : Nat) : List Char → Option (List Char)
  | [] => if size = 0 then some [] else none
  | c :: s =>
    if size = 0 then some []
    else if c.utf8Size ≤ size then (takeBytes? (size - c.utf8Size) s).map (c :: ·)
    else none

/-- The bytes of a text that has been cut off are found again. -/
theorem takeBytes?_append (s t : List Char) : takeBytes? (byteLength s) (s ++ t) = some s := by
  induction s with
  | nil => cases t <;> rfl
  | cons c s ih =>
    have hpos : 0 < c.utf8Size := Char.utf8Size_pos c
    simp only [byteLength, List.cons_append, takeBytes?]
    rw [if_neg (by omega), if_pos (by omega), Nat.add_sub_cancel_left, ih]
    rfl

/-- A line and a column, both counted from one. -/
structure Position where
  line : Nat
  column : Nat
  deriving DecidableEq, Repr

/-- The position that follows a text. -/
def Position.after (before : List Char) : Position where
  line := before.count '\n' + 1
  column := (before.reverse.takeWhile (· != '\n')).length + 1

/-- The position at a byte offset. An offset past the end stands for the end, and so does one that
falls inside a character. -/
def Position.ofOffset (source : List Char) (offset : Nat) : Position :=
  .after ((takeBytes? (min offset (byteLength source)) source).getD source)

end Reclass.Text
