import Reclass.Proofs.Script.Boundary
import Reclass.Proofs.Outcome
import Mathlib.Data.List.TakeWhile

/-!
# Reading the parts of a script again

Strings, regular expressions, numbers and punctuation that have been read once are read again
before another text, provided that they are complete before it.
-/

namespace Reclass.Script

/-- A string goes on with every plain character but its quote. -/
theorem stringTail_cons {quote c : Char} (s : List Char) (hfeed : c ≠ '\n') (hescape : c ≠ '\\') :
    stringTail quote (c :: s) =
      if c = quote then .ok ([c], s)
      else (stringTail quote s).map fun (text, rest) => (c :: text, rest) :=
  stringTail.eq_5 quote c s hfeed (fun h _ => hescape h) fun _ _ h _ => hescape h

/-- A regular expression goes on with every plain character but a slash outside of brackets. -/
theorem regexTail_cons {inClass : Bool} {c : Char} (s : List Char) (hfeed : c ≠ '\n')
    (hescape : c ≠ '\\') :
    regexTail inClass (c :: s) =
      if c = '/' ∧ inClass = false then .ok (c :: s.takeWhile isNamePart, s.dropWhile isNamePart)
      else
        (regexTail (if c = '[' then true else if c = ']' then false else inClass) s).map
          fun (text, rest) => (c :: text, rest) :=
  regexTail.eq_5 inClass c s hfeed (fun h _ => hescape h) fun _ _ h _ => hescape h

/-- A character that is no lone backslash and escapes no other one is no backslash. -/
theorem ne_backslash {c : Char} {s : List Char} (hlone : c = '\\' → s = [] → False)
    (hpair : ∀ d t, c = '\\' → s = d :: t → False) : c ≠ '\\' := by
  intro hc
  cases s with
  | nil => exact hlone hc rfl
  | cons d t => exact hpair d t hc rfl

/-- A string is read again, whatever follows it. -/
theorem stringTail_again {quote : Char} {s text rest : List Char}
    (h : stringTail quote s = .ok (text, rest)) (rest' : List Char) :
    stringTail quote (text ++ rest') = .ok (text, rest') := by
  fun_induction stringTail quote s generalizing text rest with
  | case1 => simp at h
  | case2 => simp at h
  | case3 => simp at h
  | case4 c s ih =>
    obtain ⟨⟨tail, after⟩, hs, heq⟩ := Except.map_eq_ok_iff.mp h
    cases heq
    simp [stringTail, ih hs, Except.map]
  | case5 s hfeed hlone hpair =>
    cases h
    rw [List.singleton_append, stringTail_cons rest' hfeed (ne_backslash hlone hpair), if_pos rfl]
  | case6 c s hfeed hlone hpair hquote ih =>
    obtain ⟨⟨tail, after⟩, hs, heq⟩ := Except.map_eq_ok_iff.mp h
    cases heq
    rw [List.cons_append, stringTail_cons _ hfeed (ne_backslash hlone hpair), if_neg hquote, ih hs]
    rfl

/-- What a run of characters with a property is cut to when another text follows. -/
theorem takeWhile_append_of_head {p : Char → Bool} (s : List Char) {rest : List Char}
    (hrest : ∀ c ∈ rest.head?, p c = false) :
    (s.takeWhile p ++ rest).takeWhile p = s.takeWhile p ∧
      (s.takeWhile p ++ rest).dropWhile p = rest := by
  have hall : ∀ c ∈ s.takeWhile p, p c = true := fun c hc => List.mem_takeWhile_imp hc
  rw [List.takeWhile_append_of_pos hall, List.dropWhile_append_of_pos hall]
  cases rest with
  | nil => simp
  | cons c rest => simp [hrest c rfl]

/-- A regular expression is read again before a text that does not go on with its flags. -/
theorem regexTail_again {inClass : Bool} {s text rest rest' : List Char}
    (h : regexTail inClass s = .ok (text, rest)) (hrest : ∀ c ∈ rest'.head?, isNamePart c = false) :
    regexTail inClass (text ++ rest') = .ok (text, rest') := by
  fun_induction regexTail inClass s generalizing text rest with
  | case1 => simp at h
  | case2 => simp at h
  | case3 => simp at h
  | case4 inClass c s ih =>
    obtain ⟨⟨tail, after⟩, hs, heq⟩ := Except.map_eq_ok_iff.mp h
    cases heq
    simp [regexTail, ih hs, Except.map]
  | case5 inClass c s hfeed hlone hpair hclose =>
    cases h
    obtain ⟨htake, hdrop⟩ := takeWhile_append_of_head s hrest
    rw [List.cons_append, regexTail_cons _ hfeed (ne_backslash hlone hpair), if_pos hclose, htake,
      hdrop]
  | case6 inClass c s hfeed hlone hpair hclose inClass' =>
    rename_i ih
    obtain ⟨⟨tail, after⟩, hs, heq⟩ := Except.map_eq_ok_iff.mp h
    cases heq
    rw [List.cons_append, regexTail_cons _ hfeed (ne_backslash hlone hpair), if_neg hclose, ih hs]
    rfl

/-- A number goes on as long as its next character belongs to it. -/
theorem numberTail_cons (hex : Bool) (before c : Char) (s : List Char) :
    numberTail hex before (c :: s) =
      if continuesNumber hex before c then
        (c :: (numberTail hex c s).1, (numberTail hex c s).2)
      else ([], c :: s) :=
  rfl

/-- A number is read again before a text that does not go on with it. -/
theorem numberTail_again {hex : Bool} {before : Char} {s rest' : List Char}
    (hrest : ∀ c ∈ rest'.head?,
      continuesNumber hex ((numberTail hex before s).1.getLast?.getD before) c = false) :
    numberTail hex before ((numberTail hex before s).1 ++ rest') =
      ((numberTail hex before s).1, rest') := by
  induction s generalizing before with
  | nil =>
    cases rest' with
    | nil => rfl
    | cons c rest' =>
      have hc := hrest c rfl
      simp only [numberTail, List.getLast?_nil, Option.getD_none] at hc
      simp [numberTail_cons, hc, numberTail]
  | cons c s ih =>
    rw [numberTail_cons] at hrest ⊢
    by_cases hc : continuesNumber hex before c = true
    · simp only [hc, if_true] at hrest ⊢
      rw [List.cons_append, numberTail_cons, if_pos hc]
      rw [ih]
      intro d hd
      have := hrest d hd
      rw [List.getLast?_cons] at this
      exact this
    · simp only [hc] at hrest ⊢
      cases rest' with
      | nil => rfl
      | cons d rest' =>
        have hd := hrest d rfl
        simp at hd
        simp [numberTail_cons, hd]

/-- What is left behind the characters that pass a test starts with one that does not. -/
theorem head?_dropWhile_eq_false {p : Char → Bool} (s : List Char) :
    ∀ c ∈ (s.dropWhile p).head?, p c = false := by
  intro c hc
  have h := List.head?_dropWhile_not p s
  rw [Option.mem_def.mp hc] at h
  simpa using h

/-- Behind the flags of a regular expression nothing goes on with them. -/
theorem regexTail_endsBefore {inClass : Bool} {s text rest : List Char}
    (h : regexTail inClass s = .ok (text, rest)) : ∀ c ∈ rest.head?, isNamePart c = false := by
  fun_induction regexTail inClass s generalizing text rest with
  | case1 => simp at h
  | case2 => simp at h
  | case3 => simp at h
  | case4 inClass c s ih =>
    obtain ⟨⟨tail, after⟩, hs, heq⟩ := Except.map_eq_ok_iff.mp h
    cases heq
    exact ih hs
  | case5 inClass c s =>
    cases h
    exact head?_dropWhile_eq_false s
  | case6 inClass c s _ _ _ _ inClass' =>
    rename_i ih
    obtain ⟨⟨tail, after⟩, hs, heq⟩ := Except.map_eq_ok_iff.mp h
    cases heq
    exact ih hs

/-- Behind a number nothing goes on with it. -/
theorem numberTail_endsBefore (hex : Bool) (before : Char) (s : List Char) :
    ∀ c ∈ (numberTail hex before s).2.head?,
      continuesNumber hex ((numberTail hex before s).1.getLast?.getD before) c = false := by
  induction s generalizing before with
  | nil => simp [numberTail]
  | cons d s ih =>
    rw [numberTail_cons]
    by_cases hd : continuesNumber hex before d = true
    · simp only [hd, if_true, List.getLast?_cons, Option.getD_some]
      exact ih d
    · simp [hd]

/-- A number is its first character and what goes on with it. -/
theorem number_eq (c : Char) (s : List Char) :
    number c s = (c :: (numberTail (hexAfter c s) c s).1, (numberTail (hexAfter c s) c s).2) :=
  rfl

private theorem continuesNumber_of_isAlphanum {hex : Bool} {before c : Char}
    (h : c.isAlphanum = true) : continuesNumber hex before c = true := by
  simp [continuesNumber, h]

private theorem hexAfter_eq_false {c : Char} {s : List Char}
    (h : ∀ d ∈ s.head?, d.isAlphanum = false) : hexAfter c s = false := by
  have hne (d : Char) (hd : d.isAlphanum = true) : s.head? ≠ some d := by
    intro hhead
    rw [h d hhead] at hd
    exact Bool.noConfusion hd
  simp [hexAfter, hne 'x' (by decide), hne 'X' (by decide)]

/-- A number goes on with a letter or digit, whatever it is. -/
theorem head?_of_numberTail_eq_nil {hex : Bool} {before : Char} {s : List Char}
    (h : (numberTail hex before s).1 = []) : ∀ d ∈ s.head?, d.isAlphanum = false := by
  intro d hd
  obtain ⟨t, rfl⟩ := List.head?_eq_some_iff.mp hd
  by_contra halnum
  rw [numberTail_cons, if_pos (continuesNumber_of_isAlphanum (by simpa using halnum))] at h
  exact List.cons_ne_nil _ _ h

/-- Whether a number is a hexadecimal one can be seen from what it takes of the text. -/
private theorem hexAfter_numberTail {c : Char} {s rest : List Char}
    (hrest : (numberTail (hexAfter c s) c s).1 = [] → ∀ d ∈ rest.head?, d.isAlphanum = false) :
    hexAfter c ((numberTail (hexAfter c s) c s).1 ++ rest) = hexAfter c s := by
  by_cases hnil : (numberTail (hexAfter c s) c s).1 = []
  · rw [hexAfter_eq_false (head?_of_numberTail_eq_nil hnil), hexAfter_eq_false]
    rw [hexAfter_eq_false (head?_of_numberTail_eq_nil hnil)] at hnil hrest
    simpa [hnil] using hrest hnil
  · have hhead := congrArg List.head? (numberTail_append (hexAfter c s) c s)
    rw [List.head?_append_of_ne_nil _ hnil] at hhead
    rw [hexAfter, List.head?_append_of_ne_nil _ hnil, hhead, hexAfter]

/-- What a number ends before, as its own text shows it. -/
theorem number_endsBefore_iff (c : Char) (s rest : List Char) :
    Lexeme.EndsBefore ⟨.number, (number c s).1⟩ rest ↔
      ∀ d ∈ rest.head?, continuesNumber (hexAfter c s)
        ((numberTail (hexAfter c s) c s).1.getLast?.getD c) d = false := by
  have hhex : hexAfter c ((numberTail (hexAfter c s) c s).1 ++ []) = hexAfter c s :=
    hexAfter_numberTail (by simp)
  rw [List.append_nil] at hhex
  simp only [Lexeme.EndsBefore, number_eq, startsHex, hhex, List.getLast?_cons,
    Option.getD_some]

/-- A number is read again before a text that it ends before. -/
theorem number_again {c : Char} {s rest' : List Char}
    (hends : Lexeme.EndsBefore ⟨.number, (number c s).1⟩ rest') :
    number c ((numberTail (hexAfter c s) c s).1 ++ rest') = ((number c s).1, rest') := by
  rw [number_endsBefore_iff] at hends
  have hhex : hexAfter c ((numberTail (hexAfter c s) c s).1 ++ rest') = hexAfter c s := by
    refine hexAfter_numberTail fun hnil d hd => ?_
    by_contra halnum
    have hcontinues := hends d hd
    rw [continuesNumber_of_isAlphanum (by simpa using halnum)] at hcontinues
    exact Bool.noConfusion hcontinues
  rw [number_eq, hhex, numberTail_again hends, number_eq]

/-- What a punctuation can be. -/
inductive PunctuationRead : Char → List Char → List Char → List Char → Prop
  | points (s : List Char) : PunctuationRead '.' ('.' :: '.' :: s) ['.', '.', '.'] s
  | arrow (s : List Char) : PunctuationRead '=' ('>' :: s) ['=', '>'] s
  | single {c : Char} {s : List Char} (hpoint : c = '.' → ∀ t, s ≠ '.' :: '.' :: t)
      (harrow : c = '=' → s.head? ≠ some '>') : PunctuationRead c s [c] s

/-- Every punctuation is read in one of these ways. -/
theorem punctuationRead (c : Char) (s : List Char) :
    PunctuationRead c s (punctuation c s).1 (punctuation c s).2 := by
  unfold punctuation
  split
  · exact .points _
  · exact .arrow _
  · next hpoint harrow =>
    refine .single (fun hc t ht => hpoint t hc ht) fun hc hhead => ?_
    obtain ⟨t, ht⟩ := List.head?_eq_some_iff.mp hhead
    exact harrow t hc ht

/-- A sign is one character unless it starts three points or an arrow. -/
theorem punctuation_single {c : Char} {s : List Char} (hpoint : c = '.' → ∀ t, s ≠ '.' :: '.' :: t)
    (harrow : c = '=' → s.head? ≠ some '>') : punctuation c s = ([c], s) := by
  unfold punctuation
  split
  · exact absurd rfl (hpoint rfl _)
  · exact absurd rfl (harrow rfl)
  · rfl

end Reclass.Script
