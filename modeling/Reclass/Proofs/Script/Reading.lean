import Reclass.Proofs.Outcome
import Reclass.Script.Reading
import Mathlib.Data.List.Basic
import Mathlib.Tactic.SplitIfs
import Mathlib.Tactic.Push

/-!
# What a reading gives

A reading gives a value and the text behind it, or a failure. This file states, as equations, what
each of the three readers makes of the start of a text. How a reading fails does not matter where
only the tokens of a script are compared, so the equations are also given without the failures, and
then they do not depend on where a template started.
-/

namespace Reclass.Script

/-- What was read and what is left, or how the reading failed. -/
def Reading.outcome {s : List Char} {α : Type} : Reading s α → Except Failure (α × List Char)
  | .done value rest _ => .ok (value, rest)
  | .failed failure => .error failure

/-- What was read and what is left, when the reading did not fail. -/
def Reading.result? {s : List Char} {α : Type} : Reading s α → Option (α × List Char)
  | .done value rest _ => some (value, rest)
  | .failed _ => none

/-- The token at the start of a text, and the text behind it. -/
def lexeme? (slash : Bool) : List Char → Option (Lexeme × List Char)
  | [] => none
  | c :: s => (lexeme slash c s).result?

/-- The text of a template up to its closing quote, and the text behind it. -/
def template? (s : List Char) : Option (List Char × List Char) := (template [] s).result?

/-- A substitution up to the brace that closes it, and the text behind it. -/
def substitution? (depth : Nat) (slash : Bool) (s : List Char) :
    Option (List Char × List Char) :=
  (substitution [] depth slash s).result?

/-- How many braces are open behind a token of a substitution. Behind the brace that closes the
substitution there is nothing to count. -/
def depthAfter? (depth : Nat) (token : Lexeme) : Option Nat :=
  if token = ⟨.punct, ['\x7b']⟩ then some (depth + 1)
  else if token = ⟨.punct, ['\x7d']⟩ then
    match depth with
    | 0 => none
    | depth + 1 => some depth
  else some depth

/-- Reading a token leaves strictly less text. -/
theorem lexeme?_length {slash : Bool} {s rest : List Char} {token : Lexeme}
    (h : lexeme? slash s = some (token, rest)) : rest.length < s.length := by
  cases s with
  | nil => simp [lexeme?] at h
  | cons c s =>
    rw [lexeme?] at h
    cases hl : lexeme slash c s with
    | done value rest' hlt =>
      simp only [hl, Reading.result?, Option.some.injEq, Prod.mk.injEq] at h
      rw [← h.2]
      exact hlt
    | failed failure => simp [hl, Reading.result?] at h

/-- The result of a reading is what is left of its outcome without the failures. -/
theorem Reading.result?_eq {s : List Char} {α : Type} (reading : Reading s α) :
    reading.result? = reading.outcome.toOption := by
  cases reading <;> rfl

/-- A substitution is a gap, a token, and what remains of the substitution unless that token closes
it. -/
theorem substitution_outcome (site : List Char) (depth : Nat) (slash : Bool) (s : List Char) :
    (substitution site depth slash s).outcome =
      match (gap s).2 with
      | [] => .error ⟨.unterminatedSubstitution, site, [], slash⟩
      | c :: after =>
        (lexeme slash c after).outcome >>= fun (token, rest) =>
          match depthAfter? depth token with
          | none => .ok ((gap s).1 ++ token.text, rest)
          | some depth =>
            (substitution site depth (opensRegex token.kind token.text) rest).outcome.map
              fun (text, rest) => ((gap s).1 ++ token.text ++ text, rest) := by
  rw [substitution]
  split
  · next h => simp [h, Reading.outcome]
  · next c after h =>
    simp only [h]
    split
    · next failure hl => simp [hl, Reading.outcome, bind, Except.bind]
    · next token rest hlt hl =>
      simp only [hl, Reading.outcome.eq_1, bind, Except.bind, depthAfter?]
      split_ifs
      · dsimp only
        generalize substitution site (depth + 1) _ rest = reading
        cases reading <;> rfl
      · cases depth with
        | zero => rfl
        | succ depth =>
          dsimp only
          generalize substitution site depth _ rest = reading
          cases reading <;> rfl
      · dsimp only
        generalize substitution site depth _ rest = reading
        cases reading <;> rfl

private theorem substitution_result (site : List Char) (depth : Nat) (slash : Bool)
    (s : List Char) :
    (substitution site depth slash s).result? =
      (lexeme? slash (gap s).2).bind fun (token, rest) =>
        match depthAfter? depth token with
        | none => some ((gap s).1 ++ token.text, rest)
        | some depth =>
          (substitution site depth (opensRegex token.kind token.text) rest).result?.map
            fun (text, rest) => ((gap s).1 ++ token.text ++ text, rest) := by
  rw [Reading.result?_eq, substitution_outcome]
  cases (gap s).2 with
  | nil => rfl
  | cons c after =>
    simp only [lexeme?, Reading.result?_eq, Except.toOption_bind]
    congr 1
    funext read
    cases depthAfter? depth read.1 with
    | none => rfl
    | some depth => exact Except.toOption_map

private theorem substitution_site (site site' : List Char) (depth : Nat) (slash : Bool)
    (s : List Char) :
    (substitution site depth slash s).result? = (substitution site' depth slash s).result? := by
  induction hn : s.length using Nat.strongRecOn generalizing s depth slash with
  | ind n ih =>
    rw [substitution_result, substitution_result]
    cases hl : lexeme? slash (gap s).2 with
    | none => rfl
    | some read =>
      obtain ⟨token, rest⟩ := read
      have hlt : rest.length < n :=
        hn ▸ Nat.lt_of_lt_of_le (lexeme?_length hl) (gap_length s)
      simp only [Option.bind_some, fun depth slash => ih rest.length hlt depth slash rest rfl]

/-- A substitution is a gap, a token, and what remains of the substitution unless that token closes
it. -/
theorem substitution?_eq (depth : Nat) (slash : Bool) (s : List Char) :
    substitution? depth slash s =
      (lexeme? slash (gap s).2).bind fun (token, rest) =>
        match depthAfter? depth token with
        | none => some ((gap s).1 ++ token.text, rest)
        | some depth =>
          (substitution? depth (opensRegex token.kind token.text) rest).map
            fun (text, rest) => ((gap s).1 ++ token.text ++ text, rest) :=
  substitution_result [] depth slash s

/-- How the text of a template can start. -/
inductive TemplateStart : List Char → Prop
  | nil : TemplateStart []
  | quote (s : List Char) : TemplateStart ('\x60' :: s)
  | lone : TemplateStart ['\\']
  | escaped (c : Char) (s : List Char) : TemplateStart ('\\' :: c :: s)
  | substitution (s : List Char) : TemplateStart ('$' :: '\x7b' :: s)
  | plain {c : Char} {s : List Char} (hquote : c ≠ '\x60') (hescape : c ≠ '\\')
      (hdollar : c = '$' → s.head? ≠ some '\x7b') : TemplateStart (c :: s)

/-- Every text starts in one of these ways. -/
theorem templateStart (s : List Char) : TemplateStart s := by
  cases s with
  | nil => exact .nil
  | cons c s =>
    by_cases hquote : c = '\x60'
    · subst hquote
      exact .quote s
    by_cases hescape : c = '\\'
    · subst hescape
      cases s with
      | nil => exact .lone
      | cons d s => exact .escaped d s
    by_cases hdollar : c = '$' → s.head? ≠ some '\x7b'
    · exact .plain hquote hescape hdollar
    · push Not at hdollar
      obtain ⟨rfl, hhead⟩ := hdollar
      obtain ⟨t, rfl⟩ := List.head?_eq_some_iff.mp hhead
      exact .substitution t

section Template

variable (site : List Char)

/-- A template that reaches the end of the text is not terminated. -/
@[simp] theorem template_nil_outcome :
    (template site []).outcome = .error ⟨.unterminatedTemplate, site, [], false⟩ := by
  rw [template]
  rfl

/-- A back quote ends a template. -/
@[simp] theorem template_quote_outcome (s : List Char) :
    (template site ('\x60' :: s)).outcome = .ok (['\x60'], s) := by
  rw [template]
  · rfl
  all_goals simp

/-- A template whose last character is a backslash is not terminated. -/
@[simp] theorem template_lone_outcome :
    (template site ['\\']).outcome = .error ⟨.unterminatedTemplate, site, [], false⟩ := by
  rw [template]
  rfl

/-- A template goes on behind a backslash and the character that it takes along. -/
theorem template_escaped_outcome (c : Char) (s : List Char) :
    (template site ('\\' :: c :: s)).outcome =
      (template site s).outcome.map fun (text, rest) => ('\\' :: c :: text, rest) := by
  rw [template]
  generalize template site s = reading
  cases reading <;> rfl

/-- A template goes on behind a substitution. -/
theorem template_substitution_outcome (s : List Char) :
    (template site ('$' :: '\x7b' :: s)).outcome =
      (substitution site 0 true s).outcome >>= fun (inner, after) =>
        (template site after).outcome.map
          fun (text, rest) => ('$' :: '\x7b' :: (inner ++ text), rest) := by
  rw [template]
  cases substitution site 0 true s with
  | failed failure => rfl
  | done inner after hlt =>
    simp only [Reading.outcome.eq_1, bind, Except.bind]
    generalize template site after = reading
    cases reading <;> rfl

/-- A template goes on with every other character. -/
theorem template_plain_outcome {c : Char} {s : List Char} (hquote : c ≠ '\x60')
    (hescape : c ≠ '\\') (hdollar : c = '$' → s.head? ≠ some '\x7b') :
    (template site (c :: s)).outcome =
      (template site s).outcome.map fun (text, rest) => (c :: text, rest) := by
  rw [template]
  · rw [if_neg hquote]
    generalize template site s = reading
    cases reading <;> rfl
  · exact fun h _ => hescape h
  · exact fun _ _ h _ => hescape h
  · rintro t h rfl
    exact absurd rfl (hdollar h)

private theorem template_escaped (c : Char) (s : List Char) :
    (template site ('\\' :: c :: s)).result? =
      (template site s).result?.map fun (text, rest) => ('\\' :: c :: text, rest) := by
  rw [Reading.result?_eq, template_escaped_outcome, Except.toOption_map, ← Reading.result?_eq]

private theorem template_substitution (s : List Char) :
    (template site ('$' :: '\x7b' :: s)).result? =
      (substitution? 0 true s).bind fun (inner, after) =>
        (template site after).result?.map
          fun (text, rest) => ('$' :: '\x7b' :: (inner ++ text), rest) := by
  rw [substitution?, substitution_site [] site]
  simp only [Reading.result?_eq, template_substitution_outcome, Except.toOption_bind,
    Except.toOption_map]

private theorem template_plain {c : Char} {s : List Char} (hquote : c ≠ '\x60')
    (hescape : c ≠ '\\') (hdollar : c = '$' → s.head? ≠ some '\x7b') :
    (template site (c :: s)).result? =
      (template site s).result?.map fun (text, rest) => (c :: text, rest) := by
  rw [Reading.result?_eq, template_plain_outcome site hquote hescape hdollar, Except.toOption_map,
    ← Reading.result?_eq]

end Template

private theorem substitution?_length {depth : Nat} {slash : Bool} {s text rest : List Char}
    (h : substitution? depth slash s = some (text, rest)) : rest.length < s.length := by
  rw [substitution?] at h
  cases hs : substitution [] depth slash s with
  | done value rest' hlt =>
    simp only [hs, Reading.result?, Option.some.injEq, Prod.mk.injEq] at h
    rw [← h.2]
    exact hlt
  | failed failure => simp [hs, Reading.result?] at h

private theorem template_site (site site' s : List Char) :
    (template site s).result? = (template site' s).result? := by
  induction hn : s.length using Nat.strongRecOn generalizing s with
  | ind n ih =>
    subst hn
    cases templateStart s with
    | nil => simp [Reading.result?_eq, Except.toOption]
    | quote s => simp [Reading.result?_eq]
    | lone => simp [Reading.result?_eq, Except.toOption]
    | escaped c s =>
      have hlt : s.length < ('\\' :: c :: s).length := by
        simp only [List.length_cons]
        omega
      rw [template_escaped, template_escaped, ih s.length hlt s rfl]
    | substitution s =>
      rw [template_substitution, template_substitution]
      cases hs : substitution? 0 true s with
      | none => rfl
      | some read =>
        obtain ⟨inner, after⟩ := read
        have hlt := substitution?_length hs
        simp only [Option.bind_some]
        rw [ih after.length (by simp only [List.length_cons]; omega) after rfl]
    | plain hquote hescape hdollar =>
      rw [template_plain site hquote hescape hdollar, template_plain site' hquote hescape hdollar,
        ih _ (by simp) _ rfl]

/-- At the end of a text there is no template. -/
@[simp] theorem template?_nil : template? [] = none := by
  simp [template?, Reading.result?_eq, Except.toOption]

/-- A back quote is the end of a template. -/
@[simp] theorem template?_quote (s : List Char) :
    template? ('\x60' :: s) = some (['\x60'], s) := by
  simp [template?, Reading.result?_eq, Except.toOption]

/-- A backslash at the end of a text leaves no template. -/
@[simp] theorem template?_lone : template? ['\\'] = none := by
  simp [template?, Reading.result?_eq, Except.toOption]

/-- A backslash and the character behind it belong to a template. -/
@[simp] theorem template?_escaped (c : Char) (s : List Char) :
    template? ('\\' :: c :: s) =
      (template? s).map fun (text, rest) => ('\\' :: c :: text, rest) :=
  template_escaped [] c s

/-- A substitution belongs to a template. -/
@[simp] theorem template?_substitution (s : List Char) :
    template? ('$' :: '\x7b' :: s) =
      (substitution? 0 true s).bind fun (inner, after) =>
        (template? after).map fun (text, rest) => ('$' :: '\x7b' :: (inner ++ text), rest) :=
  template_substitution [] s

/-- Every other character belongs to a template. -/
theorem template?_plain {c : Char} {s : List Char} (hquote : c ≠ '\x60') (hescape : c ≠ '\\')
    (hdollar : c = '$' → s.head? ≠ some '\x7b') :
    template? (c :: s) = (template? s).map fun (text, rest) => (c :: text, rest) :=
  template_plain [] hquote hescape hdollar

/-- What is read at the start of a text, by its first characters. -/
theorem lexeme_outcome (slash : Bool) (c : Char) (s : List Char) :
    (lexeme slash c s).outcome =
      if c = '"' ∨ c = '\'' then
        match stringTail c s with
        | .ok (text, rest) => .ok (⟨.str, c :: text⟩, rest)
        | .error rest => .error ⟨.unterminatedString, c :: s, rest, slash⟩
      else if c = '\x60' then
        (template (c :: s) s).outcome.map fun (text, rest) => (⟨.template, c :: text⟩, rest)
      else if c = '/' ∧ s.head? = some '*' then
        .error ⟨.unterminatedComment, c :: s, c :: s, slash⟩
      else if c = '/' ∧ slash then
        match regexTail false s with
        | .ok (text, rest) => .ok (⟨.regex, c :: text⟩, rest)
        | .error rest => .error ⟨.unterminatedRegex, c :: s, rest, slash⟩
      else if c.isDigit ∨ (c = '.' ∧ s.head?.any Char.isDigit) then
        .ok (⟨.number, (number c s).1⟩, (number c s).2)
      else if isNameStart c then
        .ok (⟨.ident, c :: s.takeWhile continuesName⟩, s.dropWhile continuesName)
      else .ok (⟨.punct, (punctuation c s).1⟩, (punctuation c s).2) := by
  rw [lexeme]
  split_ifs
  · split <;> next h => simp [h, Reading.outcome]
  · generalize template (c :: s) s = reading
    cases reading <;> rfl
  · rfl
  · split <;> next h => simp [h, Reading.outcome]
  · rfl
  · rfl
  · rfl

/-- What is read at the start of a text, when something is. -/
theorem lexeme?_cons (slash : Bool) (c : Char) (s : List Char) :
    lexeme? slash (c :: s) =
      if c = '"' ∨ c = '\'' then
        (stringTail c s).toOption.map fun (text, rest) => (⟨.str, c :: text⟩, rest)
      else if c = '\x60' then
        (template? s).map fun (text, rest) => (⟨.template, c :: text⟩, rest)
      else if c = '/' ∧ s.head? = some '*' then none
      else if c = '/' ∧ slash then
        (regexTail false s).toOption.map fun (text, rest) => (⟨.regex, c :: text⟩, rest)
      else if c.isDigit ∨ (c = '.' ∧ s.head?.any Char.isDigit) then
        some (⟨.number, (number c s).1⟩, (number c s).2)
      else if isNameStart c then
        some (⟨.ident, c :: s.takeWhile continuesName⟩, s.dropWhile continuesName)
      else some (⟨.punct, (punctuation c s).1⟩, (punctuation c s).2) := by
  rw [lexeme?, Reading.result?_eq, lexeme_outcome]
  split_ifs
  · cases stringTail c s <;> rfl
  · rw [template?, template_site [] (c :: s), Reading.result?_eq, Except.toOption_map]
  · rfl
  · cases regexTail false s <;> rfl
  · rfl
  · rfl
  · rfl

end Reclass.Script
