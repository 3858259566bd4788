import Reclass.Proofs.Script.Sequence

/-!
# The substitutions of a template

A template is one token, but inside of it code is read again, from the start of each substitution to
the brace that closes it. The text of a template is given from behind its opening quote on.
-/

namespace Reclass

namespace Script

/-- That a substitution of a template starts where the text `s` is left. -/
inductive SubstitutionAt : List Char → List Char → Prop
  | here (s : List Char) : SubstitutionAt ('$' :: '\x7b' :: s) s
  | behind {inner rest s t : List Char} (hinner : substitution? 0 true t = some (inner, rest))
      (h : SubstitutionAt rest s) : SubstitutionAt ('$' :: '\x7b' :: t) s
  | escaped {s t : List Char} (c : Char) (h : SubstitutionAt t s) :
      SubstitutionAt ('\\' :: c :: t) s
  | plain {c : Char} {s t : List Char} (hquote : c ≠ '\x60') (hescape : c ≠ '\\')
      (hdollar : c = '$' → t.head? ≠ some '\x7b') (h : SubstitutionAt t s) :
      SubstitutionAt (c :: t) s

/-- That a template has a substitution with this text, the brace that closes it included. -/
def Substitutes (text inner : List Char) : Prop :=
  ∃ s rest, SubstitutionAt text s ∧ substitution? 0 true s = some (inner, rest)

variable {s inner : List Char} {c : Char}

/-- A template that has ended has no substitution. -/
theorem not_substitutes_quote : ¬Substitutes ('\x60' :: s) inner := by
  rintro ⟨_, _, hat, _⟩
  cases hat with
  | plain hquote => exact hquote rfl

/-- A backslash and the character behind it start no substitution. -/
theorem substitutes_escaped_iff : Substitutes ('\\' :: c :: s) inner ↔ Substitutes s inner := by
  constructor
  · rintro ⟨t, rest, hat, hinner⟩
    cases hat with
    | escaped _ h => exact ⟨t, rest, h, hinner⟩
    | plain _ hescape => exact absurd rfl hescape
  · rintro ⟨t, rest, h, hinner⟩
    exact ⟨t, rest, .escaped c h, hinner⟩

/-- No other character starts a substitution. -/
theorem substitutes_plain_iff (hquote : c ≠ '\x60') (hescape : c ≠ '\\')
    (hdollar : c = '$' → s.head? ≠ some '\x7b') :
    Substitutes (c :: s) inner ↔ Substitutes s inner := by
  constructor
  · rintro ⟨t, rest, hat, hinner⟩
    cases hat with
    | here => exact absurd rfl (hdollar rfl)
    | behind => exact absurd rfl (hdollar rfl)
    | escaped => exact absurd rfl hescape
    | plain _ _ _ h => exact ⟨t, rest, h, hinner⟩
  · rintro ⟨t, rest, h, hinner⟩
    exact ⟨t, rest, .plain hquote hescape hdollar h, hinner⟩

/-- The substitutions of a template are the first one and those behind it. -/
theorem substitutes_substitution_iff {first rest : List Char}
    (hfirst : substitution? 0 true s = some (first, rest)) :
    Substitutes ('$' :: '\x7b' :: s) inner ↔ inner = first ∨ Substitutes rest inner := by
  constructor
  · rintro ⟨t, rest', hat, hinner⟩
    cases hat with
    | here =>
      cases hfirst.symm.trans hinner
      exact .inl rfl
    | behind hother h =>
      cases hfirst.symm.trans hother
      exact .inr ⟨t, rest', h, hinner⟩
    | plain _ _ hdollar => exact absurd rfl (hdollar rfl)
  · rintro (rfl | ⟨t, rest', h, hinner⟩)
    · exact ⟨s, rest, .here s, hfirst⟩
    · exact ⟨t, rest', .behind hfirst h, hinner⟩

end Script

end Reclass
