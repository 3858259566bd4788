import Reclass.Proofs.Script.Gap

/-!
# Where a reading stops

Whether a reading succeeds or fails, the text from which it can go on is an end of the text it was
given, and so is the text at the faulty place. So a reading never leaves its text, however deep in
nested templates it stops.
-/

namespace Reclass.Script

variable {α β : Type} {s site : List Char} {failure : Failure}

/-- That a failure is one of a text: the faulty place is in it, and so is the place from which
reading goes on. -/
structure Failure.IsIn (failure : Failure) (s : List Char) : Prop where
  site : failure.site <:+ s
  rest : failure.rest <:+ s

/-- A failure of a part of a text is one of the text. -/
theorem Failure.IsIn.trans {s' : List Char} (h : failure.IsIn s) (hs : s <:+ s') :
    failure.IsIn s' :=
  ⟨h.site.trans hs, h.rest.trans hs⟩

/-- That an outcome leaves an end of a text: the text behind what was read, or the two texts of a
failure, which may also lie between `site` and this text. -/
def Leaves (site s : List Char) : Except Failure (α × List Char) → Prop
  | .ok (_, rest) => rest <:+ s
  | .error failure => failure.IsIn site

namespace Leaves

variable {outcome : Except Failure (α × List Char)}

/-- What an outcome leaves of a text it leaves of every text around it. -/
theorem mono {site' s' : List Char} (h : Leaves site s outcome) (hs : s <:+ s')
    (hsite : site <:+ site') : Leaves site' s' outcome := by
  cases outcome with
  | error failure => exact Failure.IsIn.trans h hsite
  | ok read => exact List.IsSuffix.trans h hs

/-- What was read can be changed. -/
theorem map {f : α × List Char → β × List Char} (h : Leaves site s outcome)
    (hf : ∀ read, (f read).2 = read.2) : Leaves site s (outcome.map f) := by
  cases outcome with
  | error failure => exact h
  | ok read =>
    have hrest : read.2 <:+ s := h
    rwa [← hf read] at hrest

/-- Two readings leave what the second one leaves of the first one's rest. -/
theorem bind {next : α × List Char → Except Failure (β × List Char)} (h : Leaves site s outcome)
    (hnext : ∀ value rest, outcome = .ok (value, rest) → rest <:+ s →
      Leaves site s (next (value, rest))) :
    Leaves site s (outcome >>= next) := by
  cases outcome with
  | error failure => exact h
  | ok read => exact hnext read.1 read.2 rfl h

end Leaves

/-- Reading leaves strictly less text. -/
theorem Reading.length_lt {reading : Reading s α} {value : α} {rest : List Char}
    (h : reading.outcome = .ok (value, rest)) : rest.length < s.length := by
  cases reading with
  | done value rest hlt =>
    cases h
    exact hlt
  | failed failure => cases h

/-- What stands behind a gap is an end of the text. -/
theorem gap_suffix (s : List Char) : (gap s).2 <:+ s := ⟨(gap s).1, gap_append s⟩

/-- A string that is not terminated leaves an end of the text. -/
theorem stringTail_error {quote : Char} {rest : List Char} (h : stringTail quote s = .error rest) :
    rest <:+ s := by
  fun_induction stringTail quote s generalizing rest with
  | case1 => cases h; exact List.suffix_refl _
  | case2 => cases h; exact List.suffix_refl _
  | case3 => cases h; exact List.nil_suffix
  | case4 c s ih =>
    rw [Except.map_eq_error_iff] at h
    exact (ih h).trans ((List.suffix_cons c s).trans (List.suffix_cons _ _))
  | case5 => cases h
  | case6 c s _ _ _ _ ih =>
    rw [Except.map_eq_error_iff] at h
    exact (ih h).trans (List.suffix_cons c s)

/-- A regular expression that is not terminated leaves an end of the text. -/
theorem regexTail_error {inClass : Bool} {rest : List Char}
    (h : regexTail inClass s = .error rest) : rest <:+ s := by
  fun_induction regexTail inClass s generalizing rest with
  | case1 => cases h; exact List.suffix_refl _
  | case2 => cases h; exact List.suffix_refl _
  | case3 => cases h; exact List.nil_suffix
  | case4 inClass c s ih =>
    rw [Except.map_eq_error_iff] at h
    exact (ih h).trans ((List.suffix_cons c s).trans (List.suffix_cons _ _))
  | case5 => cases h
  | case6 inClass c s =>
    rename_i ih
    rw [Except.map_eq_error_iff] at h
    exact (ih h).trans (List.suffix_cons c s)

/-! ### The three readers -/

/-- A template leaves an end of its text, when its substitutions do. -/
private theorem leaves_template_of {n : Nat}
    (hsubstitution : ∀ (site : List Char) (depth : Nat) (slash : Bool) (s : List Char),
      s.length < n → s <:+ site → Leaves site s (substitution site depth slash s).outcome)
    (hlength : s.length ≤ n) (hs : s <:+ site) : Leaves site s (template site s).outcome := by
  induction hn : s.length using Nat.strongRecOn generalizing s with
  | ind m ih =>
    subst hn
    have hfails : Leaves (α := List Char) site s
        (.error ⟨.unterminatedTemplate, site, [], false⟩) :=
      ⟨List.suffix_refl site, List.nil_suffix⟩
    cases templateStart s with
    | nil => simpa using hfails
    | lone => simpa using hfails
    | quote s =>
      rw [template_quote_outcome]
      exact List.suffix_cons _ s
    | escaped c s =>
      have hsuffix : s <:+ '\\' :: c :: s := (List.suffix_cons c s).trans (List.suffix_cons _ _)
      simp only [List.length_cons] at hlength ih
      rw [template_escaped_outcome]
      have hrest := ih s.length (by omega) (by omega) (hsuffix.trans hs) rfl
      exact (hrest.mono hsuffix (List.suffix_refl site)).map fun _ => rfl
    | @plain c s hquote hescape hdollar =>
      simp only [List.length_cons] at hlength ih
      rw [template_plain_outcome site hquote hescape hdollar]
      have hsuffix := List.suffix_cons c s
      have hrest := ih s.length (by omega) (by omega) (hsuffix.trans hs) rfl
      exact (hrest.mono hsuffix (List.suffix_refl site)).map fun _ => rfl
    | substitution s =>
      have hsuffix : s <:+ '$' :: '\x7b' :: s := (List.suffix_cons _ s).trans (List.suffix_cons _ _)
      simp only [List.length_cons] at hlength ih
      rw [template_substitution_outcome]
      have hinner := hsubstitution site 0 true s (by omega) (hsuffix.trans hs)
      refine (hinner.mono hsuffix (List.suffix_refl site)).bind fun inner after hread hafter => ?_
      have hlt := Reading.length_lt hread
      have hrest := ih after.length (by omega) (by omega) (hafter.trans hs) rfl
      exact (hrest.mono hafter (List.suffix_refl site)).map fun _ => rfl

/-- A token leaves an end of its text, when substitutions of shorter texts do. -/
private theorem leaves_lexeme_of {n : Nat}
    (hsubstitution : ∀ (site : List Char) (depth : Nat) (slash : Bool) (s : List Char),
      s.length < n → s <:+ site → Leaves site s (substitution site depth slash s).outcome)
    (slash : Bool) (c : Char) (hlength : s.length ≤ n) :
    Leaves (c :: s) (c :: s) (lexeme slash c s).outcome := by
  have hcons := List.suffix_cons c s
  have hself := List.suffix_refl (c :: s)
  rw [lexeme_outcome]
  split_ifs
  · split
    · next text rest h => exact List.IsSuffix.trans ⟨text, (stringTail_append h).1.symm⟩ hcons
    · next h => exact ⟨hself, (stringTail_error h).trans hcons⟩
  · have htemplate := leaves_template_of hsubstitution hlength hcons
    exact (htemplate.mono hcons hself).map fun _ => rfl
  · exact ⟨hself, hself⟩
  · split
    · next text rest h => exact List.IsSuffix.trans ⟨text, (regexTail_append h).1.symm⟩ hcons
    · next h => exact ⟨hself, (regexTail_error h).trans hcons⟩
  · exact ⟨_, number_append c s⟩
  · exact (List.dropWhile_suffix _).trans hcons
  · exact ⟨_, punctuation_append c s⟩

/-- A substitution leaves an end of its text. -/
theorem leaves_substitution (site : List Char) (depth : Nat) (slash : Bool) (hs : s <:+ site) :
    Leaves site s (substitution site depth slash s).outcome := by
  induction hn : s.length using Nat.strongRecOn generalizing site depth slash s with
  | ind n ih =>
    subst hn
    have hgap := gap_suffix s
    rw [substitution_outcome]
    cases hafter : (gap s).2 with
    | nil => exact ⟨List.suffix_refl site, List.nil_suffix⟩
    | cons c after =>
      rw [hafter] at hgap
      have hlength := hgap.length_le
      rw [List.length_cons] at hlength
      have hlexeme := leaves_lexeme_of (n := s.length)
        (fun site depth slash s' hlt hs' => ih s'.length hlt site depth slash hs' rfl)
        slash c (s := after) (by omega)
      refine (hlexeme.mono hgap (hgap.trans hs)).bind fun token rest hread hrest => ?_
      dsimp only
      split
      · exact hrest
      · next depth' _ =>
        have hlt := Reading.length_lt hread
        rw [List.length_cons] at hlt
        have htail := ih rest.length (by omega) site depth'
          (opensRegex token.kind token.text) (hrest.trans hs) rfl
        exact (htail.mono hrest (List.suffix_refl site)).map fun _ => rfl

/-- A token leaves an end of its text. -/
theorem leaves_lexeme (slash : Bool) (c : Char) (s : List Char) :
    Leaves (c :: s) (c :: s) (lexeme slash c s).outcome :=
  leaves_lexeme_of (fun site depth slash _ _ hs => leaves_substitution site depth slash hs) slash c
    (Nat.le_refl s.length)

end Reclass.Script
