import Reclass.Proofs.Script.Quoted

/-!
# The values of string literals

What a string literal stands for in the language of the scripts: a sequence of UTF-16 code units, in
which a backslash starts an escape sequence. `Text.unescape` knows a few of these sequences and
takes the character behind any other backslash for itself. It is right about a literal exactly when
the literal has none of the others: each of them is read as at least as many code units as it
stands for, so one wrong reading cannot make up for another.
-/

namespace Reclass

namespace Text

/-- The code units of a code point. -/
def codeUnits (n : Nat) : List Nat :=
  if n < 0x10000 then [n]
  else [0xd800 + (n - 0x10000) / 0x400, 0xdc00 + (n - 0x10000) % 0x400]

/-- The code units of a text. -/
def utf16 (s : List Char) : List Nat := s.flatMap fun c => codeUnits c.toNat

/-- An empty text has no code units. -/
@[simp] theorem utf16_nil : utf16 [] = [] := rfl

/-- The code units of a text are those of its characters. -/
@[simp] theorem utf16_cons (c : Char) (s : List Char) :
    utf16 (c :: s) = codeUnits c.toNat ++ utf16 s := rfl

/-- The code units of two texts stand one after the other. -/
theorem utf16_append (s t : List Char) : utf16 (s ++ t) = utf16 s ++ utf16 t :=
  List.flatMap_append

/-- A code point has one code unit or two. -/
theorem codeUnits_length (n : Nat) : 1 ≤ (codeUnits n).length ∧ (codeUnits n).length ≤ 2 := by
  unfold codeUnits
  split <;> simp

/-- A text has at least as many code units as characters. -/
theorem length_le_utf16 (s : List Char) : s.length ≤ (utf16 s).length := by
  induction s with
  | nil => simp
  | cons c s ih =>
    have hc := (codeUnits_length c.toNat).1
    rw [utf16_cons, List.length_append, List.length_cons]
    omega

end Text

namespace Script

/-- The value of a hexadecimal digit. -/
def hexDigit? (c : Char) : Option Nat :=
  if c.isDigit then some (c.toNat - 48)
  else if 97 ≤ c.toNat ∧ c.toNat ≤ 102 then some (c.toNat - 87)
  else if 65 ≤ c.toNat ∧ c.toNat ≤ 70 then some (c.toNat - 55)
  else none

/-- That some digits are those of a hexadecimal number, which goes on behind another one. -/
inductive HexDigits : Nat → List Char → Nat → Prop
  | nil (n : Nat) : HexDigits n [] n
  | cons {n d m : Nat} {c : Char} {s : List Char} (hc : hexDigit? c = some d)
      (hs : HexDigits (16 * n + d) s m) : HexDigits n (c :: s) m

/-- The characters that stand for one code unit behind a backslash, and these units. -/
def singleEscapes : List (Char × Nat) :=
  [('\'', 0x27), ('"', 0x22), ('\\', 0x5c), ('b', 0x8), ('f', 0xc), ('n', 0xa), ('r', 0xd),
    ('t', 0x9), ('v', 0xb)]

/-- The texts that end a line. -/
def lineEnds : List (List Char) :=
  [['\n'], ['\r', '\n'], ['\r'], ['\u2028'], ['\u2029']]

/-- What a backslash and the text behind it stand for: an escape sequence, or the continuation of a
line. -/
inductive Escapes : List Char → List Nat → Prop
  | single {c : Char} {n : Nat} (h : (c, n) ∈ singleEscapes) : Escapes [c] [n]
  | null : Escapes ['0'] [0]
  | hex {s : List Char} {n : Nat} (hlength : s.length = 2) (hs : HexDigits 0 s n) :
      Escapes ('x' :: s) [n]
  | unicode {s : List Char} {n : Nat} (hlength : s.length = 4) (hs : HexDigits 0 s n) :
      Escapes ('u' :: s) [n]
  | codePoint {s : List Char} {n : Nat} (hne : s ≠ []) (hs : HexDigits 0 s n)
      (hle : n ≤ 0x10ffff) : Escapes ('u' :: '\x7b' :: (s ++ ['\x7d'])) (Text.codeUnits n)
  | identity {c : Char} (hsingle : c ∉ singleEscapes.map Prod.fst) (hdigit : c.isDigit = false)
      (hletter : c ≠ 'x' ∧ c ≠ 'u') (hline : [c] ∉ lineEnds) :
      Escapes [c] (Text.codeUnits c.toNat)
  | continuation {s : List Char} (hs : s ∈ lineEnds) : Escapes s []

/-- That the text between two quotes stands for some code units. The null character is not followed
by a digit, and a carriage return and the line feed behind it end one line. -/
inductive StringValue (quote : Char) : List Char → List Nat → Prop
  | nil : StringValue quote [] []
  | plain {c : Char} {s : List Char} {v : List Nat} (hquote : c ≠ quote) (hescape : c ≠ '\\')
      (hline : c ≠ '\n' ∧ c ≠ '\r') (hs : StringValue quote s v) :
      StringValue quote (c :: s) (Text.codeUnits c.toNat ++ v)
  | escape {e s : List Char} {w v : List Nat} (he : Escapes e w)
      (hnull : e = ['0'] → ∀ c ∈ s.head?, c.isDigit = false)
      (hreturn : e = ['\r'] → s.head? ≠ some '\n') (hs : StringValue quote s v) :
      StringValue quote ('\\' :: (e ++ s)) (w ++ v)

/-- The characters that a backslash gives another meaning than `Text.unescape` does. -/
def isMisread (c : Char) : Bool :=
  ['b', 'f', 'v', '0', 'x', 'u', '\r', '\u2028', '\u2029'].contains c

/-- Whether one of these stands behind a backslash. -/
def hasMisread : List Char → Bool
  | [] => false
  | '\\' :: c :: s => isMisread c || hasMisread s
  | _ :: s => hasMisread s

/-- Behind a backslash it is the next character that may be misread. -/
theorem hasMisread_pair (c : Char) (s : List Char) :
    hasMisread ('\\' :: c :: s) = (isMisread c || hasMisread s) := by
  rw [hasMisread]

/-- Any other character is read as it is. -/
theorem hasMisread_cons {c : Char} (hc : c ≠ '\\') (s : List Char) :
    hasMisread (c :: s) = hasMisread s := by
  rw [hasMisread]
  simp_all

/-- Hexadecimal digits are no backslashes. -/
theorem HexDigits.notMem_backslash {n m : Nat} {s : List Char} (h : HexDigits n s m) :
    '\\' ∉ s := by
  induction h with
  | nil => simp
  | cons hc _ ih =>
    rw [List.mem_cons, not_or]
    refine ⟨?_, ih⟩
    rintro rfl
    have hnone : hexDigit? '\\' = none := by decide
    rw [hnone] at hc
    cases hc

/-- An escape sequence is a character, and more characters only when it is misread. Read by
`Text.unescape` it is at least as long as what it stands for, and it is the same unless it is
misread. -/
private theorem Escapes.reads {e : List Char} {w : List Nat} (h : Escapes e w) :
    ∃ c rest, e = c :: rest ∧ '\\' ∉ rest ∧ (isMisread c = false → rest = []) ∧
      w.length ≤ (Text.utf16 (Text.escapeValue c ++ rest)).length ∧
      (Text.utf16 (Text.escapeValue c ++ rest) = w ↔ isMisread c = false) := by
  -- A sequence that is misread as more characters than it stands for.
  have longer (c : Char) (rest : List Char) {w : List Nat} (hrest : '\\' ∉ rest)
      (hself : Text.escapeValue c = [c]) (hmisread : isMisread c = true)
      (hlength : w.length < rest.length + 1) :
      ∃ d others, c :: rest = d :: others ∧ '\\' ∉ others ∧ (isMisread d = false → others = []) ∧
        w.length ≤ (Text.utf16 (Text.escapeValue d ++ others)).length ∧
        (Text.utf16 (Text.escapeValue d ++ others) = w ↔ isMisread d = false) := by
    have hle := Text.length_le_utf16 (Text.escapeValue c ++ rest)
    rw [hself, List.length_append, List.length_singleton] at hle
    refine ⟨c, rest, rfl, hrest, by simp [hmisread], by rw [hself]; omega, ?_⟩
    rw [hmisread, hself]
    refine iff_of_false ?_ (by simp)
    rintro rfl
    omega
  cases h with
  | @single c n hc =>
    simp only [singleEscapes, List.mem_cons, Prod.mk.injEq, List.not_mem_nil, or_false] at hc
    refine ⟨c, [], rfl, by simp, by simp, ?_⟩
    rcases hc with ⟨rfl, rfl⟩ | ⟨rfl, rfl⟩ | ⟨rfl, rfl⟩ | ⟨rfl, rfl⟩ | ⟨rfl, rfl⟩ | ⟨rfl, rfl⟩ |
      ⟨rfl, rfl⟩ | ⟨rfl, rfl⟩ | ⟨rfl, rfl⟩ <;> decide
  | null => exact ⟨'0', [], rfl, by simp, by simp, by decide, by decide⟩
  | @hex s n hlength hs =>
    exact longer 'x' s hs.notMem_backslash (by decide) (by decide) (by simp [hlength])
  | @unicode s n hlength hs =>
    exact longer 'u' s hs.notMem_backslash (by decide) (by decide) (by simp [hlength])
  | @codePoint s n hne hs _ =>
    have hunits := (Text.codeUnits_length n).2
    have hpos := List.length_pos_iff.mpr hne
    refine longer 'u' _ ?_ (by decide) (by decide) ?_
    · simp [hs.notMem_backslash]
    · simp only [List.length_cons, List.length_append, List.length_nil]
      omega
  | @identity c hsingle hdigit hletter hline =>
    have hne (d : Char) (hd : d ∈ singleEscapes.map Prod.fst ∨ d.isDigit = true ∨
        d = 'x' ∨ d = 'u' ∨ [d] ∈ lineEnds) : c ≠ d := by
      rintro rfl
      rcases hd with hd | hd | rfl | rfl | hd
      · exact hsingle hd
      · exact absurd hd (by simp [hdigit])
      · exact hletter.1 rfl
      · exact hletter.2 rfl
      · exact hline hd
    have hself : Text.escapeValue c = [c] := by
      simp [Text.escapeValue, hne 'n' (by decide), hne 't' (by decide), hne 'r' (by decide),
        hne '\n' (by decide)]
    have hread : isMisread c = false := by
      simp [isMisread, hne 'b' (by decide), hne 'f' (by decide), hne 'v' (by decide),
        hne '0' (by decide), hne '\r' (by decide), hne '\u2028' (by decide),
        hne '\u2029' (by decide), hletter]
    exact ⟨c, [], rfl, by simp, by simp, by simp [hself], by simp [hself, hread]⟩
  | continuation hs =>
    simp only [lineEnds, List.mem_cons, List.not_mem_nil, or_false] at hs
    rcases hs with rfl | rfl | rfl | rfl | rfl
    · exact ⟨'\n', [], rfl, by decide, by decide, by decide, by decide⟩
    · exact ⟨'\r', ['\n'], rfl, by decide, by decide, by decide, by decide⟩
    · exact ⟨'\r', [], rfl, by decide, by decide, by decide, by decide⟩
    · exact ⟨'\u2028', [], rfl, by decide, by decide, by decide, by decide⟩
    · exact ⟨'\u2029', [], rfl, by decide, by decide, by decide, by decide⟩

private theorem append_eq_append_of_length_le {w d v u : List Nat} (hd : w.length ≤ d.length)
    (hu : v.length ≤ u.length) : d ++ u = w ++ v ↔ d = w ∧ u = v := by
  constructor
  · intro h
    have hlength := congrArg List.length h
    rw [List.length_append, List.length_append] at hlength
    exact List.append_inj h (by omega)
  · rintro ⟨rfl, rfl⟩
    rfl

/-- A literal is read right exactly when nothing in it is misread. -/
theorem StringValue.unescape_iff {quote : Char} {s : List Char} {v : List Nat}
    (h : StringValue quote s v) :
    v.length ≤ (Text.utf16 (Text.unescape s)).length ∧
      (Text.utf16 (Text.unescape s) = v ↔ hasMisread s = false) := by
  induction h with
  | nil => decide
  | plain _ hescape _ _ ih =>
    rw [Text.unescape_cons hescape, Text.utf16_cons, hasMisread_cons hescape]
    refine ⟨?_, ?_⟩
    · rw [List.length_append, List.length_append]
      omega
    · rw [List.append_cancel_left_eq]
      exact ih.2
  | @escape e s w v he _ _ _ ih =>
    obtain ⟨c, rest, rfl, hrest, hsingle, hlength, hread⟩ := he.reads
    rw [List.cons_append, Text.unescape_pair, Text.unescape_append hrest, ← List.append_assoc,
      Text.utf16_append, hasMisread_pair, append_eq_append_of_length_le hlength ih.1, hread, ih.2]
    refine ⟨?_, ?_⟩
    · rw [List.length_append, List.length_append]
      omega
    · rw [Bool.or_eq_false_iff]
      refine and_congr_right fun hc => ?_
      rw [hsingle hc, List.nil_append]

end Script

end Reclass
