import Reclass.Proofs.Script.Reading
import Mathlib.Tactic.ByContra

/-!
# Where tokens end

A token is complete before a text when nothing at the start of that text would have belonged to it.
Spaces, brackets, quotes and most signs are neutral: every token is complete before them. So the
text behind a token can be changed without changing the token.
-/

namespace Reclass.Script

/-- Whether a number that ends in `before` goes on with a character. -/
def continuesNumber (hex : Bool) (before c : Char) : Bool :=
  c.isAlphanum || c == '_' || c == '.' ||
    ((c == '+' || c == '-') && !hex && (before == 'e' || before == 'E'))

/-- Whether a number that starts with a character is a hexadecimal one. -/
def hexAfter (c : Char) (s : List Char) : Bool :=
  c == '0' && (s.head? == some 'x' || s.head? == some 'X')

/-- Whether the text of a number is that of a hexadecimal one. -/
def startsHex : List Char → Bool
  | [] => false
  | c :: s => hexAfter c s

/-- That a token is complete before a text: nothing at the start of the text would have belonged
to it. -/
def Lexeme.EndsBefore (token : Lexeme) (rest : List Char) : Prop :=
  match token.kind with
  | .str | .template => True
  | .regex => ∀ c ∈ rest.head?, isNamePart c = false
  | .ident => ∀ c ∈ rest.head?, continuesName c = false
  | .number =>
    ∀ c ∈ rest.head?,
      continuesNumber (startsHex token.text) (token.text.getLast?.getD '0') c = false
  | .punct =>
    (token.text = ['.'] →
      (∀ c ∈ rest.head?, c.isDigit = false) ∧
        (rest.head? = some '.' → rest.tail.head? ≠ some '.')) ∧
    (token.text = ['='] → rest.head? ≠ some '>') ∧
    (token.text = ['/'] → rest.head? ≠ some '/' ∧ rest.head? ≠ some '*')

/-- The characters that go on with no token, whatever the token is. -/
def isNeutral (c : Char) : Bool :=
  !(isNamePart c || ['.', '>', '/', '*', '+', '-'].contains c)

/-- That a text goes on with no token. -/
def Neutral (s : List Char) : Prop := ∀ c ∈ s.head?, isNeutral c = true

/-- What is asked of the first character of a text is asked of the one in front. -/
theorem forall_mem_head?_cons {p : Char → Prop} {c : Char} {s : List Char} :
    (∀ d ∈ (c :: s).head?, p d) ↔ p c := by
  simp

/-- What the first character of a text is, it is also when another text follows. -/
theorem forall_mem_head?_append {p : Char → Bool} {s : List Char} (h : s.head?.any p)
    (rest : List Char) : ∀ c ∈ (s ++ rest).head?, p c = true := by
  cases s with
  | nil => exact absurd h (by simp)
  | cons c s => exact forall_mem_head?_cons.mpr (by simpa using h)

/-- A name token goes on only with characters of a name. -/
theorem isNamePart_of_continuesName {c : Char} (h : continuesName c = true) :
    isNamePart c = true := by
  unfold continuesName at h
  split at h
  · exact h
  · simp only [isNamePart, isNameStart, Bool.or_eq_true, decide_eq_true_eq]
    omega

/-- Letters and digits are characters of a name. -/
theorem isNamePart_of_isAlphanum {c : Char} (h : c.isAlphanum = true) : isNamePart c = true := by
  simp only [Char.isAlphanum, Bool.or_eq_true] at h
  simp only [isNamePart, isNameStart, Bool.or_eq_true]
  rcases h with h | h
  · exact .inl (.inl (.inl (.inl h)))
  · exact .inr h

/-- The neutral characters are those that can go on with a name, a number, an operator or a comment
in no case. -/
theorem isNeutral_iff {c : Char} :
    isNeutral c = true ↔
      isNamePart c = false ∧ c ≠ '.' ∧ c ≠ '>' ∧ c ≠ '/' ∧ c ≠ '*' ∧ c ≠ '+' ∧ c ≠ '-' := by
  simp [isNeutral]

/-- No number goes on with a neutral character. -/
theorem continuesNumber_of_isNeutral {hex : Bool} {before c : Char} (h : isNeutral c = true) :
    continuesNumber hex before c = false := by
  obtain ⟨hname, hpoint, _, _, _, hplus, hminus⟩ := isNeutral_iff.mp h
  have halnum : c.isAlphanum = false := by
    by_contra hc
    rw [isNamePart_of_isAlphanum (by simpa using hc)] at hname
    exact Bool.noConfusion hname
  have hlow : c ≠ '_' := by
    rintro rfl
    exact absurd hname (by decide)
  simp [continuesNumber, halnum, hlow, hpoint, hplus, hminus]

/-- No neutral character is a digit. -/
theorem isDigit_of_isNeutral {c : Char} (h : isNeutral c = true) : c.isDigit = false := by
  have hname := (isNeutral_iff.mp h).1
  simp only [isNamePart, Bool.or_eq_false_iff] at hname
  exact hname.2

/-- Every token is complete at the end of a text. -/
theorem Lexeme.endsBefore_nil (token : Lexeme) : token.EndsBefore [] := by
  unfold Lexeme.EndsBefore
  cases token.kind <;> simp

/-- Every token is complete before a neutral text. -/
theorem Lexeme.endsBefore_of_neutral (token : Lexeme) {s : List Char} (h : Neutral s) :
    token.EndsBefore s := by
  cases s with
  | nil => exact token.endsBefore_nil
  | cons c s =>
    have hc : isNeutral c = true := h c rfl
    obtain ⟨hname, hpoint, hgreater, hslash, hstar, _, _⟩ := isNeutral_iff.mp hc
    have hcont : continuesName c = false := by
      by_contra hcont
      rw [isNamePart_of_continuesName (by simpa using hcont)] at hname
      exact Bool.noConfusion hname
    unfold Lexeme.EndsBefore
    cases token.kind <;>
      simp [hname, hcont, continuesNumber_of_isNeutral hc, isDigit_of_isNeutral hc, hpoint,
        hgreater, hslash, hstar]

/-- At most the first two characters of a text decide whether a token is complete before it. -/
theorem Lexeme.EndsBefore.extend {token : Lexeme} {mid old new : List Char}
    (h : token.EndsBefore (mid ++ old)) (hnew : Neutral new) : token.EndsBefore (mid ++ new) := by
  match mid, h with
  | [], _ => exact token.endsBefore_of_neutral hnew
  | [c], h =>
    have hpoint : new.head? ≠ some '.' := by
      intro hhead
      exact absurd (hnew '.' hhead) (by decide)
    unfold Lexeme.EndsBefore at h ⊢
    cases hkind : token.kind <;> simp_all
  | c :: d :: mid, h =>
    unfold Lexeme.EndsBefore at h ⊢
    cases hkind : token.kind <;> simp_all

end Reclass.Script
