import Reclass.Proofs.Script.Again
import Reclass.Proofs.Script.ByteReader

/-!
# Parts of a script byte by byte

Each part that is read byte by byte ends where the same part ends that is read by characters, and
what stops the one reader stops the other. Between its steps the reader of bytes may stand inside of
a character, and behind a last backslash it stands one byte behind the end.
-/

namespace Reclass.Script

open Text

namespace ByteReader

variable {source s : List Char} {pos start : Nat} {u : CodeUnit} {c : Char}

/-! ### The bytes of a character -/

/-- The first byte of a character is a byte of ASCII when the character is that one. -/
theorem ofChar_eq_ascii_iff {d : Char} (hd : d.toNat < 0x80) :
    CodeUnit.ofChar c = .ascii d ↔ c = d := by
  rw [CodeUnit.ofChar]
  split
  · rw [CodeUnit.ascii.injEq]
  · next hc =>
    constructor
    · intro h
      cases h
    · rintro rfl
      exact absurd hd hc

private theorem isDigit_lt (h : c.isDigit = true) : c.toNat < 0x80 := by
  have hrange := isDigit_iff.mp h
  omega

private theorem isAlpha_lt (h : c.isAlpha = true) : c.toNat < 0x80 := by
  have hrange := isAlpha_iff.mp h
  omega

/-- A digit is known by its byte. -/
theorem isDigitUnit_ofChar (c : Char) : isDigitUnit (.ofChar c) = c.isDigit := by
  rw [CodeUnit.ofChar]
  split
  · rfl
  · next hc =>
    rw [isDigitUnit, eq_comm, ← Bool.not_eq_true]
    exact fun h => hc (isDigit_lt h)

/-- The start of a name is known by its first byte. -/
theorem isNameStartUnit_ofChar (c : Char) : isNameStartUnit (.ofChar c) = isNameStart c := by
  rw [CodeUnit.ofChar]
  split
  · rfl
  · next hc => simp [isNameStartUnit, isNameStart, Nat.le_of_not_lt hc]

/-- A character of a name is known by its first byte. -/
theorem isNamePartUnit_ofChar (c : Char) : isNamePartUnit (.ofChar c) = isNamePart c := by
  rw [CodeUnit.ofChar]
  split
  · rfl
  · next hc => simp [isNamePartUnit, isNamePart, isNameStart, Nat.le_of_not_lt hc]

/-! ### Where a part ends -/

/-- That a reader that stopped stands at the start of a text. Behind the end there is nothing of
it, also one byte behind. -/
def Reaches (source : List Char) (pos : Nat) (s : List Char) : Prop :=
  TailAt source pos s ∨ s = [] ∧ pos = byteLength source + 1

/-- That the end of a part is where reading it by characters from an offset on leaves off, or that
both stop. -/
inductive Ends (source : List Char) (pos : Nat) (e : SyntaxError) :
    Except (List Char) (List Char × List Char) → Except (Halt × Nat) Nat → Prop
  | closed {text rest : List Char} (h : TailAt source (pos + byteLength text) rest) :
      Ends source pos e (.ok (text, rest)) (.ok (pos + byteLength text))
  | stopped {rest : List Char} {after : Nat} (h : Reaches source after rest) :
      Ends source pos e (.error rest) (.error (.fault e, after))

/-- A part goes on behind some characters. -/
theorem Ends.after {e : SyntaxError} {outcome : Except (List Char) (List Char × List Char)}
    {reached : Except (Halt × Nat) Nat} (before : List Char)
    (h : Ends source (pos + byteLength before) e outcome reached) :
    Ends source pos e (outcome.map fun (text, rest) => (before ++ text, rest)) reached := by
  cases h with
  | @closed text rest h =>
    rw [Nat.add_assoc, ← byteLength_append] at h ⊢
    exact .closed h
  | stopped h => exact .stopped h

/-- The step over the two bytes of an escape may end inside of the escaped character, the others of
whose bytes are passed one by one. -/
private theorem over_escaped {α : Type} {f : Nat → α}
    (hf : ∀ p, unitAt source p = some .part → f p = f (p + 1))
    (h : TailAt source pos ('\\' :: c :: s)) : f (pos + 2) = f (pos + byteLength ['\\', c]) := by
  have hover := TailAt.pass hf h.cons
  have hsize : '\\'.utf8Size = 1 := rfl
  have hbytes : byteLength ['\\', c] = 1 + c.utf8Size := rfl
  rwa [hbytes, ← Nat.add_assoc, ← hsize]

/-- The step over the first byte of a character. -/
private theorem over_char {α : Type} {f : Nat → α}
    (hf : ∀ p, unitAt source p = some .part → f p = f (p + 1)) (h : TailAt source pos (c :: s)) :
    f (pos + 1) = f (pos + byteLength [c]) :=
  TailAt.pass hf h

private theorem ne_of_no_escape (hlone : c = '\\' → s = [] → False)
    (hescape : ∀ d t, c = '\\' → s = d :: t → False) : c ≠ '\\' := by
  intro heq
  cases s with
  | nil => exact hlone heq rfl
  | cons d t => exact hescape d t heq rfl

/-! ### Quoted strings -/

/-- A string that reaches the end of the script is not terminated. -/
theorem stringEnd_none {quote : Char} (h : unitAt source pos = none) :
    stringEnd source quote start pos = .error (.fault ⟨.unterminatedString, start⟩, pos) := by
  rw [stringEnd]
  split
  · rfl
  · next h' =>
    rw [h] at h'
    cases h'

/-- What the next byte does to a string. -/
theorem stringEnd_some {quote : Char} (h : unitAt source pos = some u) :
    stringEnd source quote start pos =
      if u = .ascii '\n' then .error (.fault ⟨.unterminatedString, start⟩, pos)
      else if u = .ascii '\\' then stringEnd source quote start (pos + 2)
      else if u = .ascii quote then .ok (pos + 1)
      else stringEnd source quote start (pos + 1) := by
  rw [stringEnd]
  split
  · next h' =>
    rw [h] at h'
    cases h'
  · next h' =>
    cases h.symm.trans h'
    rfl

private theorem stringEnd_part {quote : Char} (p : Nat) (h : unitAt source p = some .part) :
    stringEnd source quote start p = stringEnd source quote start (p + 1) := by
  rw [stringEnd_some h, if_neg (by simp), if_neg (by simp), if_neg (by simp)]

/-- A string ends where reading its characters does. -/
theorem stringEnd_ends {quote : Char} (hquote : quote.toNat < 0x80) (h : TailAt source pos s) :
    Ends source pos ⟨.unterminatedString, start⟩ (stringTail quote s)
      (stringEnd source quote start pos) := by
  fun_induction stringTail quote s generalizing pos with
  | case1 =>
    rw [stringEnd_none h.unitAt_nil]
    exact .stopped (.inl h)
  | case2 s =>
    rw [stringEnd_some h.unitAt_cons, if_pos (by decide)]
    exact .stopped (.inl h)
  | case3 =>
    have hend := h.add_byteLength
    have hsize : byteLength ['\\'] = 1 := rfl
    rw [stringEnd_some h.unitAt_cons, if_neg (by decide), if_pos (by decide),
      stringEnd_none (unitAt_eq_none_iff.mpr (by omega))]
    exact .stopped (.inr ⟨rfl, by omega⟩)
  | case4 c s ih =>
    rw [stringEnd_some h.unitAt_cons, if_neg (by decide), if_pos (by decide),
      over_escaped stringEnd_part h]
    exact (ih (TailAt.append h)).after ['\\', c]
  | case5 s hfeed hlone hescape =>
    have hne := ne_of_no_escape hlone hescape
    have hsize : byteLength [quote] = 1 := utf8Size_eq_one hquote
    simp only [stringEnd_some h.unitAt_cons, ofChar_eq_ascii_iff hquote,
      ofChar_eq_ascii_iff (d := '\n') (by decide), ofChar_eq_ascii_iff (d := '\\') (by decide),
      if_neg hfeed, if_neg hne, if_true]
    rw [← hsize]
    exact .closed (TailAt.append h)
  | case6 c s hfeed hlone hescape hclose ih =>
    have hne := ne_of_no_escape hlone hescape
    simp only [stringEnd_some h.unitAt_cons, ofChar_eq_ascii_iff hquote,
      ofChar_eq_ascii_iff (d := '\n') (by decide), ofChar_eq_ascii_iff (d := '\\') (by decide),
      if_neg hfeed, if_neg hne, if_neg hclose]
    rw [over_char stringEnd_part h]
    exact (ih (TailAt.append h)).after [c]

/-! ### Regular expressions -/

/-- The flags end where no name goes on. -/
theorem flagsEnd_eq (h : TailAt source pos s) :
    flagsEnd source pos = pos + byteLength (s.takeWhile isNamePart) := by
  have hstep {p : Nat} {u : CodeUnit} (hu : unitAt source p = some u) :
      flagsEnd source p = if isNamePartUnit u then flagsEnd source (p + 1) else p := by
    rw [flagsEnd]
    split
    · next h' =>
      rw [hu] at h'
      cases h'
    · next h' =>
      cases hu.symm.trans h'
      rfl
  induction s generalizing pos with
  | nil =>
    rw [flagsEnd]
    split
    · rfl
    · next h' =>
      rw [h.unitAt_nil] at h'
      cases h'
  | cons c s ih =>
    rw [hstep h.unitAt_cons, isNamePartUnit_ofChar]
    cases hpart : isNamePart c with
    | false =>
      rw [List.takeWhile_cons_of_neg (by simp [hpart])]
      rfl
    | true =>
      have hpass (p : Nat) (hp : unitAt source p = some .part) :
          flagsEnd source p = flagsEnd source (p + 1) := hstep hp
      rw [if_pos rfl, over_char hpass h, ih (TailAt.append h), List.takeWhile_cons_of_pos hpart,
        Nat.add_assoc, ← byteLength_append]
      rfl

/-- A regular expression that reaches the end of the script is not terminated. -/
theorem regexEnd_none {inClass : Bool} (h : unitAt source pos = none) :
    regexEnd source start inClass pos = .error (.fault ⟨.unterminatedRegex, start⟩, pos) := by
  rw [regexEnd]
  split
  · rfl
  · next h' =>
    rw [h] at h'
    cases h'

/-- What the next byte does to a regular expression. -/
theorem regexEnd_some {inClass : Bool} (h : unitAt source pos = some u) :
    regexEnd source start inClass pos =
      if u = .ascii '\n' then .error (.fault ⟨.unterminatedRegex, start⟩, pos)
      else if u = .ascii '\\' then regexEnd source start inClass (pos + 2)
      else if u = .ascii '[' then regexEnd source start true (pos + 1)
      else if u = .ascii ']' then regexEnd source start false (pos + 1)
      else if u = .ascii '/' ∧ inClass = false then .ok (flagsEnd source (pos + 1))
      else regexEnd source start inClass (pos + 1) := by
  rw [regexEnd]
  split
  · next h' =>
    rw [h] at h'
    cases h'
  · next h' =>
    cases h.symm.trans h'
    rfl

private theorem regexEnd_part {inClass : Bool} (p : Nat) (h : unitAt source p = some .part) :
    regexEnd source start inClass p = regexEnd source start inClass (p + 1) := by
  rw [regexEnd_some h, if_neg (by simp), if_neg (by simp), if_neg (by simp), if_neg (by simp),
    if_neg (by simp)]

/-- A regular expression ends where reading its characters does. -/
theorem regexEnd_ends {inClass : Bool} (h : TailAt source pos s) :
    Ends source pos ⟨.unterminatedRegex, start⟩ (regexTail inClass s)
      (regexEnd source start inClass pos) := by
  fun_induction regexTail inClass s generalizing pos with
  | case1 =>
    rw [regexEnd_none h.unitAt_nil]
    exact .stopped (.inl h)
  | case2 =>
    rw [regexEnd_some h.unitAt_cons, if_pos (by decide)]
    exact .stopped (.inl h)
  | case3 =>
    have hend := h.add_byteLength
    have hsize : byteLength ['\\'] = 1 := rfl
    rw [regexEnd_some h.unitAt_cons, if_neg (by decide), if_pos (by decide),
      regexEnd_none (unitAt_eq_none_iff.mpr (by omega))]
    exact .stopped (.inr ⟨rfl, by omega⟩)
  | case4 inClass c s ih =>
    rw [regexEnd_some h.unitAt_cons, if_neg (by decide), if_pos (by decide),
      over_escaped regexEnd_part h]
    exact (ih (TailAt.append h)).after ['\\', c]
  | case5 inClass c s hfeed hlone hescape hclose =>
    obtain ⟨rfl, rfl⟩ := hclose
    have hflags := flagsEnd_eq (TailAt.append (t := ['/']) h)
    have hend : TailAt source (pos + byteLength ('/' :: s.takeWhile isNamePart))
        (s.dropWhile isNamePart) := by
      refine TailAt.append (t := '/' :: s.takeWhile isNamePart) ?_
      rwa [List.cons_append, List.takeWhile_append_dropWhile]
    rw [regexEnd_some h.unitAt_cons, if_neg (by decide), if_neg (by decide), if_neg (by decide),
      if_neg (by decide), if_pos (by decide), show pos + 1 = pos + byteLength ['/'] from rfl,
      hflags, Nat.add_assoc, ← byteLength_append]
    exact .closed hend
  | case6 inClass c s hfeed hlone hescape hclose inClass' =>
    rename_i ih
    have hne := ne_of_no_escape hlone hescape
    have hnext : regexEnd source start inClass pos =
        regexEnd source start inClass' (pos + byteLength [c]) := by
      rw [← over_char regexEnd_part h, regexEnd_some h.unitAt_cons]
      simp (disch := decide) only [ofChar_eq_ascii_iff, if_neg hfeed, if_neg hne, if_neg hclose,
        inClass']
      split_ifs <;> rfl
    rw [hnext]
    exact (ih (TailAt.append h)).after [c]

/-! ### Numbers -/

/-- A number may end with the script. -/
theorem numberEnd_none {hex : Bool} (h : unitAt source pos = none) :
    numberEnd source hex pos = .ok pos := by
  rw [numberEnd]
  split
  · rfl
  · next h' =>
    rw [h] at h'
    cases h'

/-- A number goes on as long as its next byte belongs to it. -/
theorem numberEnd_some {hex exponentSign : Bool} (h : unitAt source pos = some u)
    (hsign : isExponentSign source hex pos u = .ok exponentSign) :
    numberEnd source hex pos =
      if continuesNumber u exponentSign then numberEnd source hex (pos + 1) else .ok pos := by
  rw [numberEnd]
  split
  · next h' =>
    rw [h] at h'
    cases h'
  · next h' =>
    cases h.symm.trans h'
    rw [hsign]

private theorem isAlphanum_lt (h : c.isAlphanum = true) : c.toNat < 0x80 := by
  rw [Char.isAlphanum, Bool.or_eq_true] at h
  rcases h with h | h
  · exact isAlpha_lt h
  · exact isDigit_lt h

/-- A number goes on with characters of ASCII only. -/
theorem continuesNumber_ofChar (c : Char) (exponentSign : Bool) :
    continuesNumber (.ofChar c) exponentSign =
      (c.isAlphanum || c == '_' || c == '.' || exponentSign) := by
  rw [CodeUnit.ofChar]
  split
  · rfl
  · next hc =>
    have halphanum : c.isAlphanum = false := by
      rw [← Bool.not_eq_true]
      exact fun h => hc (isAlphanum_lt h)
    have hother {d : Char} (hd : d.toNat < 0x80) : (c == d) = false := by
      rw [beq_eq_false_iff_ne]
      rintro rfl
      exact hc hd
    rw [continuesNumber, halphanum, hother (d := '_') (by decide), hother (d := '.') (by decide)]
    rfl

/-- Behind a character of a number it is known whether a sign belongs to an exponent. -/
theorem isExponentSign_eq {hex : Bool} {before : Char}
    (hbefore : unitAt source pos = some (.ascii before)) (c : Char) :
    isExponentSign source hex (pos + 1) (.ofChar c) =
      .ok ((c == '+' || c == '-') && !hex && (before == 'e' || before == 'E')) := by
  unfold isExponentSign
  simp (disch := decide) only [ofChar_eq_ascii_iff]
  split
  · next hsign =>
    obtain ⟨hsign, rfl⟩ := hsign
    rw [hbefore]
    rcases hsign with rfl | rfl
    · simp [beq_eq_decide]
    · simp [beq_eq_decide]
  · next hsign =>
    have hnone : ((c == '+' || c == '-') && !hex) = false := by simpa using hsign
    rw [hnone, Bool.false_and]

/-- A number ends where reading its characters does. -/
theorem numberEnd_tail {hex : Bool} {before : Char}
    (hbefore : unitAt source pos = some (.ascii before)) (h : TailAt source (pos + 1) s) :
    numberEnd source hex (pos + 1) = .ok (pos + 1 + byteLength (numberTail hex before s).1) := by
  induction s generalizing pos before with
  | nil =>
    rw [numberEnd_none h.unitAt_nil]
    rfl
  | cons c s ih =>
    rw [numberEnd_some h.unitAt_cons (isExponentSign_eq hbefore c), continuesNumber_ofChar,
      numberTail]
    dsimp only
    split
    · next hcontinues =>
      have hc : c.toNat < 0x80 := by
        simp only [Bool.or_eq_true, Bool.and_eq_true, beq_iff_eq] at hcontinues
        obtain ((halphanum | rfl) | rfl) | ⟨⟨rfl | rfl, -⟩, -⟩ := hcontinues
        · exact isAlphanum_lt halphanum
        all_goals decide
      have hsize := utf8Size_eq_one hc
      have hunit := h.unitAt_cons
      have htail := h.cons
      rw [CodeUnit.ofChar, if_pos hc] at hunit
      rw [hsize] at htail
      rw [ih hunit htail, byteLength, hsize, Nat.add_assoc]
    · rfl

/-- A number, its first character included, ends where reading its characters does. -/
theorem numberEnd_eq {hex : Bool} (hstart : c.isDigit ∨ c = '.') (h : TailAt source pos (c :: s)) :
    numberEnd source hex pos = .ok (pos + byteLength (c :: (numberTail hex c s).1)) := by
  have hc : c.toNat < 0x80 := by
    rcases hstart with hdigit | rfl
    · exact isDigit_lt hdigit
    · decide
  have hsign : isExponentSign source hex pos (.ofChar c) = .ok false := by
    have hnot : c ≠ '+' ∧ c ≠ '-' := by
      rcases hstart with hdigit | rfl
      · constructor <;> (rintro rfl; exact absurd hdigit (by decide))
      · decide
    unfold isExponentSign
    simp (disch := decide) only [ofChar_eq_ascii_iff]
    rw [if_neg (by simp [hnot])]
  have hcontinues : continuesNumber (.ofChar c) false = true := by
    rw [continuesNumber_ofChar]
    rcases hstart with hdigit | rfl
    · simp [Char.isAlphanum, hdigit]
    · decide
  have hsize := utf8Size_eq_one hc
  have hunit := h.unitAt_cons
  have htail := h.cons
  rw [numberEnd_some hunit hsign, if_pos hcontinues]
  rw [CodeUnit.ofChar, if_pos hc] at hunit
  rw [hsize] at htail
  rw [numberEnd_tail hunit htail, byteLength, hsize, Nat.add_assoc]

/-- A number is hexadecimal when it starts with a zero and an x. -/
theorem isHexAt_eq (h : TailAt source pos (c :: s)) :
    isHexAt source pos = .ok (c == '0' && (s.head? == some 'x' || s.head? == some 'X')) := by
  have hbegins (d : Char) :
      ['0', d].isPrefixOf (c :: s) = (c == '0' && s.head? == some d) := by
    rw [List.isPrefixOf_cons_cons, Bool.beq_comm]
    cases s with
    | nil => simp
    | cons e s => simp [List.isPrefixOf, Bool.beq_comm]
  rw [isHexAt, h.tailFrom?_eq]
  simp only [hbegins, Bool.and_or_distrib_left]

/-! ### Names and punctuations -/

/-- A name ends where no name goes on. -/
theorem nameEnd_eq (h : TailAt source pos s) :
    nameEnd source pos = .ok (pos + byteLength (s.takeWhile continuesName)) := by
  induction s generalizing pos with
  | nil =>
    rw [nameEnd]
    split
    · next h' =>
      rw [h.tailFrom?_eq] at h'
      cases h'
    · rfl
    · next h' =>
      rw [h.tailFrom?_eq] at h'
      cases h'
  | cons c s ih =>
    rw [nameEnd]
    split
    · next h' =>
      rw [h.tailFrom?_eq] at h'
      cases h'
    · next h' =>
      rw [h.tailFrom?_eq] at h'
      cases h'
    · next h' =>
      cases h.tailFrom?_eq.symm.trans h'
      split
      · next hcontinues =>
        rw [ih h.cons, List.takeWhile_cons_of_pos hcontinues, byteLength, Nat.add_assoc]
      · next hcontinues =>
        rw [List.takeWhile_cons_of_neg hcontinues]
        rfl

/-- A punctuation of ASCII ends where reading its characters does. -/
theorem punctuationEnd_eq (hc : c.toNat < 0x80) (h : TailAt source pos (c :: s)) :
    punctuationEnd source pos = .ok (pos + byteLength (punctuation c s).1) := by
  rw [punctuationEnd, h.tailFrom?_eq]
  fun_cases punctuation c s with
  | case1 s => rfl
  | case2 s => rfl
  | case3 =>
    rename_i hdots harrow
    have hnotDots : ¬['.', '.', '.'].isPrefixOf (c :: s) = true := by
      intro hbegins
      obtain ⟨t, ht⟩ := List.isPrefixOf_iff_prefix.mp hbegins
      obtain ⟨rfl, rfl⟩ := List.cons.inj ht
      exact hdots t rfl rfl
    have hnotArrow : ¬['=', '>'].isPrefixOf (c :: s) = true := by
      intro hbegins
      obtain ⟨t, ht⟩ := List.isPrefixOf_iff_prefix.mp hbegins
      obtain ⟨rfl, rfl⟩ := List.cons.inj ht
      exact harrow t rfl rfl
    have hsize : byteLength [c] = 1 := utf8Size_eq_one hc
    dsimp only
    rw [if_neg hnotDots, if_neg hnotArrow, hsize]

/-! ### Gaps -/

/-- A line ends behind its line feed, or with the script. -/
theorem lineEnd_eq (h : TailAt source pos s) :
    lineEnd source pos =
      .ok (if '\n' ∈ s then pos + byteLength (s.takeWhile (· != '\n')) + 1
        else byteLength source) := by
  rw [lineEnd, h.tailFrom?_eq]
  dsimp only
  split_ifs <;> rfl

private theorem gapEnd_none (h : unitAt source pos = none) : gapEnd source pos = .ok pos := by
  rw [gapEnd]
  split
  · rfl
  · next h' =>
    rw [h] at h'
    cases h'
  · next h' =>
    rw [h] at h'
    cases h'

/-- At a character beyond ASCII, a gap goes on when it is a space. -/
private theorem gapEnd_part (h : unitAt source pos = some .part)
    (htail : TailAt source pos (c :: s)) :
    gapEnd source pos = if isSpace c then gapEnd source (pos + c.utf8Size) else .ok pos := by
  rw [gapEnd]
  split
  · next h' =>
    rw [h] at h'
    cases h'
  · simp only [htail.tailFrom?_eq]
  · next h' =>
    rw [h] at h'
    cases h'

private theorem gapEnd_ascii (h : unitAt source pos = some (.ascii c)) :
    gapEnd source pos =
      if isSpace c then gapEnd source (pos + 1)
      else if c = '/' ∧ unitAt source (pos + 1) = some (.ascii '/') then
        lineEnd source pos >>= gapEnd source
      else if c = '/' ∧ unitAt source (pos + 1) = some (.ascii '*') then
        match tailFrom? (pos + 2) source with
        | none => .error (.outOfRange, pos)
        | some s =>
          match commentTail s with
          | none => .error (.fault ⟨.unterminatedComment, pos⟩, pos)
          | some (text, _) => gapEnd source (pos + 2 + byteLength text)
      else .ok pos := by
  rw [gapEnd]
  split
  · next h' =>
    rw [h] at h'
    cases h'
  · next h' =>
    rw [h] at h'
    cases h'
  · next h' =>
    cases h.symm.trans h'
    split_ifs
    · rfl
    · split
      · next hline => 
        rw [hline]
        rfl
      · next hline => 
        rw [hline]
        rfl
    · rfl
    · rfl

/-- A gap goes on behind a space. -/
theorem gapEnd_space (h : TailAt source pos (c :: s)) (hspace : isSpace c = true) :
    gapEnd source pos = gapEnd source (pos + c.utf8Size) := by
  have hunit := h.unitAt_cons
  rw [CodeUnit.ofChar] at hunit
  split at hunit
  · next hc => rw [gapEnd_ascii hunit, if_pos hspace, utf8Size_eq_one hc]
  · rw [gapEnd_part hunit h, if_pos hspace]

/-- A line is skipped up to behind its line feed, which is a space. -/
theorem gapEnd_lineEnd (h : TailAt source pos s) :
    (lineEnd source pos >>= gapEnd source) =
      gapEnd source (pos + byteLength (s.takeWhile (· != '\n'))) := by
  have hsplit : s.takeWhile (· != '\n') ++ s.dropWhile (· != '\n') = s :=
    List.takeWhile_append_dropWhile
  have hend : TailAt source (pos + byteLength (s.takeWhile (· != '\n')))
      (s.dropWhile (· != '\n')) := TailAt.append (by rwa [hsplit])
  rw [lineEnd_eq h]
  change gapEnd source _ = _
  cases hdrop : s.dropWhile (· != '\n') with
  | nil =>
    rw [hdrop] at hend hsplit
    have hfeed : '\n' ∉ s := by
      rw [← hsplit, List.append_nil]
      exact notMem_takeWhile_line s
    rw [if_neg hfeed, ← hend.add_byteLength]
    rfl
  | cons c t =>
    have hc := head?_dropWhile_eq_false (p := (· != '\n')) s c (by rw [hdrop]; rfl)
    obtain rfl : c = '\n' := by simpa using hc
    rw [hdrop] at hend hsplit
    have hfeed : '\n' ∈ s := by
      rw [← hsplit]
      simp
    rw [if_pos hfeed, gapEnd_space hend (by decide)]
    rfl

/-- A line comment is skipped. -/
private theorem gapEnd_line (h : TailAt source pos ('/' :: '/' :: s)) :
    gapEnd source pos =
      gapEnd source (pos + byteLength ('/' :: '/' :: s.takeWhile (· != '\n'))) := by
  have hsecond : unitAt source (pos + 1) = some (.ascii '/') := h.cons.unitAt_cons
  rw [gapEnd_ascii h.unitAt_cons, if_neg (by decide), if_pos ⟨rfl, hsecond⟩, gapEnd_lineEnd h]
  rfl

/-- A separator is skipped. -/
theorem gapEnd_separator {text rest : List Char} (h : TailAt source pos s)
    (hsep : separator? s = some (text, rest)) :
    gapEnd source pos = gapEnd source (pos + byteLength text) := by
  cases separator?_eq_some_iff.mp hsep with
  | space hspace => exact gapEnd_space h hspace
  | line s => exact gapEnd_line h
  | @block s text rest hcomment =>
    have hsecond : unitAt source (pos + 1) = some (.ascii '*') := h.cons.unitAt_cons
    have htail : tailFrom? (pos + 2) source = some s :=
      (TailAt.append (t := ['/', '*']) h).tailFrom?_eq
    rw [gapEnd_ascii h.unitAt_cons, if_neg (by decide), if_neg (by simp [hsecond]),
      if_pos ⟨rfl, hsecond⟩, htail]
    have hsize : byteLength ('/' :: '*' :: text) = 2 + byteLength text :=
      byteLength_append ['/', '*'] text
    simp only [hcomment, hsize, Nat.add_assoc]

/-- A gap is skipped. -/
theorem gapEnd_gap (h : TailAt source pos s) :
    gapEnd source pos = gapEnd source (pos + byteLength (gap s).1) := by
  induction hn : s.length using Nat.strongRecOn generalizing s pos with
  | ind n ih =>
    subst hn
    cases hsep : separator? s with
    | none =>
      rw [gap_of_separator?_eq_none hsep]
      rfl
    | some cut =>
      obtain ⟨text, rest⟩ := cut
      obtain ⟨rfl, -⟩ := separator?_eq_some hsep
      rw [gapEnd_separator h hsep, gap_of_separator?_eq_some hsep, byteLength_append,
        ih rest.length (separator?_length hsep) h.append rfl, Nat.add_assoc]

/-- A block comment without its end stops a reader where it starts. -/
theorem gapEnd_comment (h : TailAt source pos ('/' :: '*' :: s))
    (hsep : separator? ('/' :: '*' :: s) = none) :
    gapEnd source pos = .error (.fault ⟨.unterminatedComment, pos⟩, pos) := by
  have hsecond : unitAt source (pos + 1) = some (.ascii '*') := h.cons.unitAt_cons
  have htail : tailFrom? (pos + 2) source = some s :=
    (TailAt.append (t := ['/', '*']) h).tailFrom?_eq
  have hcomment : commentTail s = none := by simpa [separator?] using hsep
  rw [gapEnd_ascii h.unitAt_cons, if_neg (by decide), if_neg (by simp [hsecond]),
    if_pos ⟨rfl, hsecond⟩, htail]
  simp only [hcomment]

/-- Where no separator starts, a gap ends. -/
theorem gapEnd_token (h : TailAt source pos (c :: s)) (hsep : separator? (c :: s) = none)
    (hcomment : ¬(c = '/' ∧ s.head? = some '*')) : gapEnd source pos = .ok pos := by
  have hspace := not_isSpace_of_separator?_eq_none hsep
  have hunit := h.unitAt_cons
  rw [CodeUnit.ofChar] at hunit
  split at hunit
  · next hc =>
    have htail := h.cons
    rw [utf8Size_eq_one hc] at htail
    have hline : ¬(c = '/' ∧ unitAt source (pos + 1) = some (.ascii '/')) := by
      rintro ⟨rfl, hsecond⟩
      exact head?_ne_slash_of_separator?_eq_none hsep
        ((htail.unitAt_eq_ascii_iff (by decide)).mp hsecond)
    have hblock : ¬(c = '/' ∧ unitAt source (pos + 1) = some (.ascii '*')) := by
      rwa [htail.unitAt_eq_ascii_iff (by decide)]
    rw [gapEnd_ascii hunit, if_neg (by simp [hspace]), if_neg hline, if_neg hblock]
  · rw [gapEnd_part hunit h, if_neg (by simp [hspace])]

/-- At the end there is no gap. -/
theorem gapEnd_of_le (h : byteLength source ≤ pos) : gapEnd source pos = .ok pos :=
  gapEnd_none (unitAt_eq_none_iff.mpr h)

end ByteReader

end Reclass.Script
