import Reclass.Proofs.Script.Gap

/-!
# Reading tokens again

A token is a local matter: what is read does not depend on the text behind the token, as long as the
token is complete before that text. For templates this is an induction over the substitutions
nested in them, in which tokens, templates and substitutions take turns.
-/

namespace Reclass.Script

/-- What a token can be read as, one case for each kind. -/
inductive LexemeRead (slash : Bool) : List Char → Lexeme → List Char → Prop
  | str {c : Char} {s text rest : List Char} (hquote : c = '"' ∨ c = '\'')
      (h : stringTail c s = .ok (text, rest)) : LexemeRead slash (c :: s) ⟨.str, c :: text⟩ rest
  | template {s text rest : List Char} (h : template? s = some (text, rest)) :
      LexemeRead slash ('\x60' :: s) ⟨.template, '\x60' :: text⟩ rest
  | regex {s text rest : List Char} (hslash : slash = true) (hstar : s.head? ≠ some '*')
      (h : regexTail false s = .ok (text, rest)) :
      LexemeRead slash ('/' :: s) ⟨.regex, '/' :: text⟩ rest
  | number {c : Char} {s : List Char} (hc : c.isDigit ∨ (c = '.' ∧ s.head?.any Char.isDigit)) :
      LexemeRead slash (c :: s) ⟨.number, (number c s).1⟩ (number c s).2
  | ident {c : Char} {s : List Char} (hc : isNameStart c = true) :
      LexemeRead slash (c :: s) ⟨.ident, c :: s.takeWhile continuesName⟩
        (s.dropWhile continuesName)
  | punct {c : Char} {s : List Char} (hquote : ¬(c = '"' ∨ c = '\'')) (hback : c ≠ '\x60')
      (hslash : c = '/' → s.head? ≠ some '*' ∧ slash = false)
      (hdigit : ¬(c.isDigit ∨ (c = '.' ∧ s.head?.any Char.isDigit))) (hname : ¬isNameStart c) :
      LexemeRead slash (c :: s) ⟨.punct, (punctuation c s).1⟩ (punctuation c s).2

/-- The digits are the characters from 48 to 57. -/
theorem isDigit_iff {c : Char} : c.isDigit = true ↔ 48 ≤ c.toNat ∧ c.toNat ≤ 57 := by
  simp [Char.isDigit, UInt32.le_iff_toNat_le]

/-- The letters of ASCII are the characters from 65 to 90 and from 97 to 122. -/
theorem isAlpha_iff {c : Char} :
    c.isAlpha = true ↔ 65 ≤ c.toNat ∧ c.toNat ≤ 90 ∨ 97 ≤ c.toNat ∧ c.toNat ≤ 122 := by
  change (decide (c.val ≥ 'A'.val ∧ c.val ≤ 'Z'.val) ||
    (decide (c.val ≥ 'a'.val) && decide (c.val ≤ 'z'.val))) = true ↔ _
  simp [UInt32.le_iff_toNat_le]

/-- No name starts with a digit. -/
theorem not_isDigit_of_isNameStart {c : Char} (h : isNameStart c = true) : ¬c.isDigit := by
  intro hdigit
  have hrange := isDigit_iff.mp hdigit
  simp only [isNameStart, Bool.or_eq_true, isAlpha_iff, beq_iff_eq, decide_eq_true_eq] at h
  rcases h with ((h | rfl) | rfl) | h
  · omega
  · exact absurd hdigit (by decide)
  · exact absurd hdigit (by decide)
  · omega

/-- A token is read exactly in these ways. -/
theorem lexeme?_eq_some_iff {slash : Bool} {s rest : List Char} {token : Lexeme} :
    lexeme? slash s = some (token, rest) ↔ LexemeRead slash s token rest := by
  constructor
  · intro h
    cases s with
    | nil => simp [lexeme?] at h
    | cons c s =>
      rw [lexeme?_cons] at h
      split_ifs at h with hquote hback hstar hslash hdigit hname
      · obtain ⟨⟨text, after⟩, hs, heq⟩ := Option.map_eq_some_iff.mp h
        cases heq
        exact .str hquote (Except.toOption_eq_some_iff.mp hs)
      · obtain ⟨⟨text, after⟩, hs, heq⟩ := Option.map_eq_some_iff.mp h
        cases heq
        subst hback
        exact .template hs
      · obtain ⟨⟨text, after⟩, hs, heq⟩ := Option.map_eq_some_iff.mp h
        cases heq
        obtain ⟨rfl, hslash⟩ := hslash
        exact .regex hslash (fun h => hstar ⟨rfl, h⟩) (Except.toOption_eq_some_iff.mp hs)
      · cases h
        exact .number hdigit
      · cases h
        exact .ident hname
      · cases h
        refine .punct hquote hback (fun hc => ⟨fun h => hstar ⟨hc, h⟩, ?_⟩) hdigit hname
        simpa using fun h => hslash ⟨hc, h⟩
  · intro h
    cases h with
    | str hquote h =>
      rw [lexeme?_cons, if_pos hquote, h]
      rfl
    | template h =>
      rw [lexeme?_cons, if_neg (by decide), if_pos rfl, h]
      rfl
    | regex hslash hstar h =>
      rw [lexeme?_cons, if_neg (by decide), if_neg (by decide), if_neg (fun h => hstar h.2),
        if_pos ⟨rfl, hslash⟩, h]
      rfl
    | @number c s hc =>
      have hne (d : Char) (hd : d.isDigit = false ∧ d ≠ '.') : c ≠ d := by
        rintro rfl
        rcases hc with h | h
        · exact absurd h (by simp [hd.1])
        · exact hd.2 h.1
      rw [lexeme?_cons, if_neg (by simp [hne '"' (by decide), hne '\'' (by decide)]),
        if_neg (hne _ (by decide)), if_neg (fun h => hne '/' (by decide) h.1),
        if_neg (fun h => hne '/' (by decide) h.1), if_pos hc]
    | @ident c s hc =>
      have hne (d : Char) (hd : isNameStart d = false) : c ≠ d := by
        rintro rfl
        exact absurd hc (by simp [hd])
      have hdigit : ¬(c.isDigit ∨ (c = '.' ∧ s.head?.any Char.isDigit)) := by
        rintro (h | h)
        · exact not_isDigit_of_isNameStart hc h
        · exact hne '.' (by decide) h.1
      rw [lexeme?_cons, if_neg (by simp [hne '"' (by decide), hne '\'' (by decide)]),
        if_neg (hne _ (by decide)), if_neg (fun h => hne '/' (by decide) h.1),
        if_neg (fun h => hne '/' (by decide) h.1), if_neg hdigit, if_pos hc]
    | punct hquote hback hslash hdigit hname =>
      rw [lexeme?_cons, if_neg hquote, if_neg hback, if_neg (fun h => (hslash h.1).1 h.2),
        if_neg (fun h => absurd h.2 (by simp [(hslash h.1).2])), if_neg hdigit, if_neg hname]
/-- Behind a token that was read where no gap was left, the token is complete. -/
theorem LexemeRead.endsBefore {slash : Bool} {s rest : List Char} {token : Lexeme}
    (h : LexemeRead slash s token rest) (hgap : separator? s = none) : token.EndsBefore rest := by
  cases h with
  | str => trivial
  | template => trivial
  | regex _ _ h => exact regexTail_endsBefore h
  | number => exact (number_endsBefore_iff _ _ _).mpr (numberTail_endsBefore _ _ _)
  | ident => exact head?_dropWhile_eq_false _
  | @punct c s hquote hback hslash hdigit hname =>
    generalize htext : (punctuation c s).1 = text
    generalize hrest : (punctuation c s).2 = rest
    have hread := punctuationRead c s
    rw [htext, hrest] at hread
    cases hread with
    | points => simp [Lexeme.EndsBefore]
    | arrow => simp [Lexeme.EndsBefore]
    | single hpoint harrow =>
      refine ⟨fun h => ?_, fun h => ?_, fun h => ?_⟩
      · obtain rfl : c = '.' := by simpa using h
        refine ⟨fun d hd => ?_, fun hhead htail => ?_⟩
        · by_contra h
          exact hdigit (.inr ⟨rfl, by simpa [Option.mem_def.mp hd] using h⟩)
        · obtain ⟨t, rfl⟩ := List.head?_eq_some_iff.mp hhead
          obtain ⟨u, rfl⟩ := List.head?_eq_some_iff.mp htail
          exact hpoint rfl u rfl
      · exact harrow (by simpa using h)
      · obtain rfl : c = '/' := by simpa using h
        refine ⟨fun hhead => ?_, (hslash rfl).1⟩
        obtain ⟨t, rfl⟩ := List.head?_eq_some_iff.mp hhead
        exact absurd hgap (by simp [separator?])

/-- What the text of a template can be read as, by its first characters. -/
inductive TemplateRead : List Char → List Char → List Char → Prop
  | quote (s : List Char) : TemplateRead ('\x60' :: s) ['\x60'] s
  | escaped {s text rest : List Char} (c : Char) (h : template? s = some (text, rest)) :
      TemplateRead ('\\' :: c :: s) ('\\' :: c :: text) rest
  | substitution {s inner after text rest : List Char}
      (hinner : substitution? 0 true s = some (inner, after))
      (h : template? after = some (text, rest)) :
      TemplateRead ('$' :: '\x7b' :: s) ('$' :: '\x7b' :: (inner ++ text)) rest
  | plain {c : Char} {s text rest : List Char} (hquote : c ≠ '\x60') (hescape : c ≠ '\\')
      (hdollar : c = '$' → s.head? ≠ some '\x7b') (h : template? s = some (text, rest)) :
      TemplateRead (c :: s) (c :: text) rest

/-- A template is read exactly in these ways. -/
theorem template?_eq_some_iff {s text rest : List Char} :
    template? s = some (text, rest) ↔ TemplateRead s text rest := by
  constructor
  · intro h
    cases templateStart s with
    | nil => exact absurd h (by simp)
    | quote =>
      rw [template?_quote] at h
      cases h
      exact .quote _
    | lone => exact absurd h (by simp)
    | escaped c s =>
      rw [template?_escaped] at h
      obtain ⟨⟨tail, after⟩, hs, heq⟩ := Option.map_eq_some_iff.mp h
      cases heq
      exact .escaped c hs
    | substitution s =>
      rw [template?_substitution] at h
      obtain ⟨⟨inner, after⟩, hs, h⟩ := Option.bind_eq_some_iff.mp h
      obtain ⟨⟨tail, last⟩, ht, heq⟩ := Option.map_eq_some_iff.mp h
      cases heq
      exact .substitution hs ht
    | plain hquote hescape hdollar =>
      rw [template?_plain hquote hescape hdollar] at h
      obtain ⟨⟨tail, after⟩, hs, heq⟩ := Option.map_eq_some_iff.mp h
      cases heq
      exact .plain hquote hescape hdollar hs
  · intro h
    cases h with
    | quote => exact template?_quote _
    | escaped c h =>
      rw [template?_escaped, h]
      rfl
    | substitution hinner h =>
      rw [template?_substitution, hinner]
      simp only [Option.bind_some, h, Option.map_some]
    | plain hquote hescape hdollar h =>
      rw [template?_plain hquote hescape hdollar, h]
      rfl

/-- What a substitution can be read as: the token that closes it, or a token and what remains. -/
inductive SubstitutionRead (depth : Nat) (slash : Bool) (s : List Char) :
    List Char → List Char → Prop
  | closed {token : Lexeme} {rest : List Char} (hread : LexemeRead slash (gap s).2 token rest)
      (hdepth : depthAfter? depth token = none) :
      SubstitutionRead depth slash s ((gap s).1 ++ token.text) rest
  | more {token : Lexeme} {depth' : Nat} {after tail rest : List Char}
      (hread : LexemeRead slash (gap s).2 token after)
      (hdepth : depthAfter? depth token = some depth')
      (htail : substitution? depth' (opensRegex token.kind token.text) after = some (tail, rest)) :
      SubstitutionRead depth slash s ((gap s).1 ++ token.text ++ tail) rest

/-- A substitution is read exactly in these ways. -/
theorem substitution?_eq_some_iff {depth : Nat} {slash : Bool} {s text rest : List Char} :
    substitution? depth slash s = some (text, rest) ↔ SubstitutionRead depth slash s text rest := by
  constructor
  · intro h
    rw [substitution?_eq] at h
    obtain ⟨⟨token, after⟩, htoken, h⟩ := Option.bind_eq_some_iff.mp h
    cases hdepth : depthAfter? depth token with
    | none =>
      simp only [hdepth] at h
      cases h
      exact .closed (lexeme?_eq_some_iff.mp htoken) hdepth
    | some depth' =>
      simp only [hdepth] at h
      obtain ⟨⟨tail, last⟩, htail, heq⟩ := Option.map_eq_some_iff.mp h
      cases heq
      exact .more (lexeme?_eq_some_iff.mp htoken) hdepth htail
  · intro h
    cases h with
    | closed hread hdepth =>
      rw [substitution?_eq, lexeme?_eq_some_iff.mpr hread]
      simp only [Option.bind_some, hdepth]
    | more hread hdepth htail =>
      rw [substitution?_eq, lexeme?_eq_some_iff.mpr hread]
      simp only [Option.bind_some, hdepth, htail, Option.map_some]

/-- Behind a gap a token leaves less of a text than there was. -/
theorem LexemeRead.length_lt {slash : Bool} {s rest : List Char} {token : Lexeme}
    (h : LexemeRead slash (gap s).2 token rest) : rest.length < s.length :=
  Nat.lt_of_lt_of_le (lexeme?_length (lexeme?_eq_some_iff.mpr h)) (gap_length s)

/-- Only a closing brace closes a substitution. -/
theorem eq_brace_of_depthAfter? {depth : Nat} {token : Lexeme}
    (h : depthAfter? depth token = none) : token = ⟨.punct, ['\x7d']⟩ := by
  unfold depthAfter? at h
  split_ifs at h with _ hclose
  exact hclose

/-- That what a reader cuts off the start of a text is cut off again, whatever follows it. -/
def CutAgain (read : List Char → Option (List Char × List Char)) (s : List Char) : Prop :=
  ∀ text rest, read s = some (text, rest) →
    (s = text ++ rest ∧ text ≠ []) ∧ ∀ rest', read (text ++ rest') = some (text, rest')

/-- A token and what is behind it are the text it was read from. -/
private theorem LexemeRead.append_of {slash : Bool} {s rest : List Char} {token : Lexeme}
    (h : LexemeRead slash s token rest)
    (htemplate : ∀ t, s = '\x60' :: t → CutAgain template? t) :
    s = token.text ++ rest ∧ token.text ≠ [] := by
  cases h with
  | str _ h => simp [(stringTail_append h).1]
  | template h => simp [(htemplate _ rfl _ _ h).1.1]
  | regex _ _ h => simp [(regexTail_append h).1]
  | @number c s => exact ⟨(number_append c s).symm, List.cons_ne_nil _ _⟩
  | ident => simp [List.takeWhile_append_dropWhile]
  | @punct c s => exact ⟨(punctuation_append c s).symm, punctuation_ne_nil c s⟩

/-- Where a token was read behind a gap, no separator starts when it is written again. -/
theorem LexemeRead.separator?_eq_none {slash : Bool} {s rest rest' : List Char} {token : Lexeme}
    (h : LexemeRead slash s token rest) (hgap : separator? s = none)
    (hends : token.EndsBefore rest') : separator? (token.text ++ rest') = none := by
  have hother {c : Char} {t u : List Char} (h : separator? (c :: t) = none) (hc : c ≠ '/') :
      separator? (c :: u) = none :=
    Script.separator?_eq_none u (not_isSpace_of_separator?_eq_none h) fun h => absurd h hc
  cases h with
  | str hquote h =>
    refine hother hgap ?_
    rintro rfl
    exact absurd hquote (by decide)
  | template h => exact hother hgap (by decide)
  | @regex s text rest hslash hstar h =>
    obtain ⟨hs, hne⟩ := regexTail_append h
    have hhead : (text ++ rest').head? = s.head? := by
      rw [hs, List.head?_append_of_ne_nil _ hne, List.head?_append_of_ne_nil _ hne]
    have hslash := head?_ne_slash_of_separator?_eq_none hgap
    rw [← hhead] at hslash hstar
    exact Script.separator?_eq_none _ (by decide) fun _ => ⟨hslash, hstar⟩
  | number hc =>
    refine hother hgap ?_
    rintro rfl
    exact absurd hc (by simp)
  | ident hc =>
    refine hother hgap ?_
    rintro rfl
    exact absurd hc (by decide)
  | @punct c s hquote hback hslash hdigit hname =>
    generalize htext : (punctuation c s).1 = text at hends ⊢
    generalize hrest : (punctuation c s).2 = rest
    have hread := punctuationRead c s
    rw [htext, hrest] at hread
    cases hread with
    | points => exact hother hgap (by decide)
    | arrow => exact hother hgap (by decide)
    | single =>
      refine Script.separator?_eq_none _ (not_isSpace_of_separator?_eq_none hgap) fun hc => ?_
      exact hends.2.2 (by simp [hc])

/-- A token that is complete before a text is read again there. -/
private theorem LexemeRead.again_of {slash : Bool} {s rest rest' : List Char} {token : Lexeme}
    (h : LexemeRead slash s token rest) (hends : token.EndsBefore rest')
    (htemplate : ∀ t, s = '\x60' :: t → CutAgain template? t) :
    LexemeRead slash (token.text ++ rest') token rest' := by
  cases h with
  | str hquote h => exact .str hquote (stringTail_again h rest')
  | template h => exact .template ((htemplate _ rfl _ _ h).2 rest')
  | @regex s text rest hslash hstar h =>
    obtain ⟨hs, hne⟩ := regexTail_append h
    have hstar' : (text ++ rest').head? ≠ some '*' := by
      rw [List.head?_append_of_ne_nil _ hne]
      rwa [hs, List.head?_append_of_ne_nil _ hne] at hstar
    exact .regex hslash hstar' (regexTail_again h hends)
  | @number c s hc =>
    have hagain := number_again hends
    have hc' : c.isDigit ∨ (c = '.' ∧
        ((numberTail (hexAfter c s) c s).1 ++ rest').head?.any Char.isDigit) := by
      rcases hc with hdigit | ⟨rfl, hdigit⟩
      · exact .inl hdigit
      · refine .inr ⟨rfl, ?_⟩
        have hnil : (numberTail (hexAfter '.' s) '.' s).1 ≠ [] := by
          intro hnil
          obtain ⟨d, hd, hdigit⟩ := (Option.any_eq_true _ _).mp hdigit
          have halnum := head?_of_numberTail_eq_nil hnil d hd
          simp [Char.isAlphanum, hdigit] at halnum
        have hhead := congrArg List.head? (numberTail_append (hexAfter '.' s) '.' s)
        rw [List.head?_append_of_ne_nil _ hnil] at hhead
        rwa [List.head?_append_of_ne_nil _ hnil, hhead]
    have h : LexemeRead slash _ _ _ := .number hc'
    rwa [hagain] at h
  | @ident c s hc =>
    obtain ⟨htake, hdrop⟩ := takeWhile_append_of_head s hends
    have h : LexemeRead slash (c :: (s.takeWhile continuesName ++ rest')) _ _ := .ident hc
    rwa [htake, hdrop] at h
  | @punct c s hquote hback hslash hdigit hname =>
    have hagain {t : List Char} (hstar : c = '/' → t.head? ≠ some '*')
        (hpoint : c = '.' → ∀ d ∈ t.head?, d.isDigit = false) :
        LexemeRead slash (c :: t) ⟨.punct, (punctuation c t).1⟩ (punctuation c t).2 := by
      refine .punct hquote hback (fun hc => ⟨hstar hc, (hslash hc).2⟩) ?_ hname
      rintro (hc | ⟨hc, hd⟩)
      · exact hdigit (.inl hc)
      · obtain ⟨d, hd, hdigit⟩ := (Option.any_eq_true _ _).mp hd
        rw [hpoint hc d hd] at hdigit
        exact Bool.noConfusion hdigit
    generalize htext : (punctuation c s).1 = text at hends ⊢
    generalize hrest : (punctuation c s).2 = rest
    have hread := punctuationRead c s
    rw [htext, hrest] at hread
    cases hread with
    | points => exact hagain (t := '.' :: '.' :: rest') (by simp) (by simp)
    | arrow => exact hagain (t := '>' :: rest') (by simp) (by simp)
    | single hpoint harrow =>
      have h := hagain (t := rest') (fun hc => (hends.2.2 (by simp [hc])).2)
        (fun hc => (hends.1 (by simp [hc])).1)
      rwa [punctuation_single] at h
      · rintro hc t rfl
        exact (hends.1 (by simp [hc])).2 rfl rfl
      · exact fun hc => hends.2.1 (by simp [hc])

private theorem template_cutAgain {s : List Char}
    (htemplate : ∀ t : List Char, t.length < s.length → CutAgain template? t)
    (hsubstitution : ∀ t : List Char, t.length < s.length → CutAgain (substitution? 0 true) t) :
    CutAgain template? s := by
  intro text rest h
  cases template?_eq_some_iff.mp h with
  | quote s => exact ⟨⟨rfl, List.cons_ne_nil _ _⟩, template?_quote⟩
  | @escaped s tail _ c hs =>
    obtain ⟨⟨rfl, _⟩, hagain⟩ := htemplate s (by simp only [List.length_cons]; omega) tail _ hs
    exact ⟨⟨rfl, List.cons_ne_nil _ _⟩,
      fun rest' => template?_eq_some_iff.mpr (.escaped c (hagain rest'))⟩
  | @substitution s inner after tail _ hs ht =>
    obtain ⟨⟨rfl, _⟩, hinner⟩ :=
      hsubstitution s (by simp only [List.length_cons]; omega) inner after hs
    obtain ⟨⟨rfl, _⟩, htail⟩ := htemplate after
      (by simp only [List.length_cons, List.length_append]; omega) tail _ ht
    refine ⟨⟨by simp, List.cons_ne_nil _ _⟩, fun rest' => ?_⟩
    rw [List.cons_append, List.cons_append, List.append_assoc]
    exact template?_eq_some_iff.mpr (.substitution (hinner _) (htail rest'))
  | @plain c s tail _ hquote hescape hdollar hs =>
    obtain ⟨⟨rfl, hne⟩, hagain⟩ := htemplate s (by simp) tail _ hs
    refine ⟨⟨rfl, List.cons_ne_nil _ _⟩, fun rest' => ?_⟩
    rw [List.cons_append]
    refine template?_eq_some_iff.mpr (.plain hquote hescape (fun hc => ?_) (hagain rest'))
    have hhead := hdollar hc
    rw [List.head?_append_of_ne_nil _ hne] at hhead
    rwa [List.head?_append_of_ne_nil _ hne]

/-- A substitution ends in the brace that closes it. -/
private theorem substitution?_getLast {depth : Nat} {slash : Bool} {s text rest : List Char}
    (h : substitution? depth slash s = some (text, rest)) :
    ∃ before, text = before ++ ['\x7d'] := by
  induction hn : s.length using Nat.strongRecOn generalizing s text depth slash with
  | ind n ih =>
    subst hn
    cases substitution?_eq_some_iff.mp h with
    | closed hread hdepth => exact ⟨(gap s).1, by rw [eq_brace_of_depthAfter? hdepth]⟩
    | @more token _ _ _ _ hread _ htail =>
      obtain ⟨before, rfl⟩ := ih _ hread.length_lt htail rfl
      exact ⟨(gap s).1 ++ token.text ++ before, by simp⟩

private theorem substitution_cutAgain {depth : Nat} {slash : Bool} {s : List Char}
    (htemplate : ∀ t : List Char, t.length < s.length → CutAgain template? t)
    (hsubstitution : ∀ (t : List Char) (depth : Nat) (slash : Bool), t.length < s.length →
      CutAgain (substitution? depth slash) t) :
    CutAgain (substitution? depth slash) s := by
  intro text rest h
  have hshorter : ∀ t, (gap s).2 = '\x60' :: t → CutAgain template? t := by
    intro t ht
    have hle := gap_length s
    rw [ht, List.length_cons] at hle
    exact htemplate t (by omega)
  -- a token of the substitution is read again before every text that it ends before
  have hagain {token : Lexeme} {after : List Char} (hread : LexemeRead slash (gap s).2 token after)
      (rest' : List Char) (hends' : token.EndsBefore rest') :
      gap ((gap s).1 ++ (token.text ++ rest')) = ((gap s).1, token.text ++ rest') ∧
        LexemeRead slash (token.text ++ rest') token rest' := by
    obtain ⟨htext, hne⟩ := hread.append_of hshorter
    have hnone := hread.separator?_eq_none (separator?_gap s) hends'
    obtain ⟨c, t, hc⟩ := List.exists_cons_of_ne_nil hne
    have hgap : gap s = ((gap s).1, c :: (t ++ after)) :=
      Prod.ext rfl (by rw [htext, hc, List.cons_append])
    refine ⟨?_, hread.again_of hends' hshorter⟩
    rw [gap_again hgap, gap_of_separator?_eq_none hnone, List.append_nil]
  cases substitution?_eq_some_iff.mp h with
  | @closed token _ hread hdepth =>
    obtain ⟨htext, hne⟩ := hread.append_of hshorter
    refine ⟨⟨by rw [List.append_assoc, ← htext, gap_append], by simp [hne]⟩, fun rest' => ?_⟩
    have hends' : token.EndsBefore rest' := by
      simp [eq_brace_of_depthAfter? hdepth, Lexeme.EndsBefore]
    obtain ⟨hgap, hread'⟩ := hagain hread rest' hends'
    rw [substitution?_eq_some_iff, List.append_assoc]
    have hclosed : SubstitutionRead depth slash ((gap s).1 ++ (token.text ++ rest')) _ rest' :=
      .closed (by rwa [hgap]) hdepth
    rwa [hgap] at hclosed
  | @more token depth' after tail _ hread hdepth htail =>
    obtain ⟨htext, hne⟩ := hread.append_of hshorter
    obtain ⟨⟨rfl, _⟩, htailAgain⟩ := hsubstitution after depth' _ hread.length_lt tail _ htail
    obtain ⟨before, rfl⟩ := substitution?_getLast htail
    refine ⟨⟨by rw [List.append_assoc, List.append_assoc, ← htext, gap_append], by simp [hne]⟩,
      fun rest' => ?_⟩
    have hends' : token.EndsBefore (before ++ ['\x7d'] ++ rest') := by
      have hends := hread.endsBefore (separator?_gap s)
      rw [List.append_assoc] at hends ⊢
      exact hends.extend (by simp [Neutral]; decide)
    obtain ⟨hgap, hread'⟩ := hagain hread _ hends'
    rw [substitution?_eq_some_iff, List.append_assoc, List.append_assoc]
    have hmore : SubstitutionRead depth slash
        ((gap s).1 ++ (token.text ++ (before ++ ['\x7d'] ++ rest'))) _ rest' :=
      .more (by rwa [hgap]) hdepth (htailAgain rest')
    rwa [hgap] at hmore

/-- Templates and their substitutions are read again, whatever follows them. -/
theorem cutAgain (s : List Char) :
    CutAgain template? s ∧ ∀ depth slash, CutAgain (substitution? depth slash) s := by
  induction hn : s.length using Nat.strongRecOn generalizing s with
  | ind n ih =>
    subst hn
    have htemplate : ∀ t : List Char, t.length < s.length → CutAgain template? t :=
      fun t ht => (ih t.length ht t rfl).1
    have hsubstitution : ∀ (t : List Char) (depth : Nat) (slash : Bool), t.length < s.length →
        CutAgain (substitution? depth slash) t :=
      fun t depth slash ht => (ih t.length ht t rfl).2 depth slash
    exact ⟨template_cutAgain htemplate fun t => hsubstitution t 0 true,
      fun depth slash => substitution_cutAgain htemplate hsubstitution⟩

/-- A token and what is behind it are the text it was read from. -/
theorem LexemeRead.append {slash : Bool} {s rest : List Char} {token : Lexeme}
    (h : LexemeRead slash s token rest) : s = token.text ++ rest ∧ token.text ≠ [] :=
  h.append_of fun t _ => (cutAgain t).1

/-- A token that is complete before a text is read again there. -/
theorem LexemeRead.again {slash : Bool} {s rest rest' : List Char} {token : Lexeme}
    (h : LexemeRead slash s token rest) (hends : token.EndsBefore rest') :
    LexemeRead slash (token.text ++ rest') token rest' :=
  h.again_of hends fun t _ => (cutAgain t).1

/-- Behind a gap, a token is found again before every text that it ends before. -/
theorem LexemeRead.gap_again {slash : Bool} {s rest rest' : List Char} {token : Lexeme}
    (h : LexemeRead slash (gap s).2 token rest) (hends : token.EndsBefore rest') :
    gap ((gap s).1 ++ (token.text ++ rest')) = ((gap s).1, token.text ++ rest') := by
  have hnone := h.separator?_eq_none (separator?_gap s) hends
  obtain ⟨htext, hne⟩ := h.append
  obtain ⟨c, t, hc⟩ := List.exists_cons_of_ne_nil hne
  have hgap : gap s = ((gap s).1, c :: (t ++ rest)) :=
    Prod.ext rfl (by rw [htext, hc, List.cons_append])
  rw [Script.gap_again hgap, gap_of_separator?_eq_none hnone, List.append_nil]

end Reclass.Script
