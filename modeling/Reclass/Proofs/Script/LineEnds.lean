import Reclass.Proofs.Script.Gap

/-!
# Line ends of two characters

A script may end its lines in a line feed, or in a carriage return and a line feed. Nearly
everything is read the same way. Only a backslash at the end of a line takes along just one
character: in a string or a regular expression it is the carriage return, and the line feed behind
it then ends the literal too early.
-/

namespace Reclass

/-- A text with a carriage return in front of every line feed. -/
def Text.crlf (s : List Char) : List Char := s.flatMap fun c => if c = '\n' then ['\r', c] else [c]

namespace Text

/-- An empty text has no line feeds to be changed. -/
@[simp] theorem crlf_nil : crlf [] = [] := rfl

/-- A line feed gets a carriage return in front. -/
@[simp] theorem crlf_feed (s : List Char) : crlf ('\n' :: s) = '\r' :: '\n' :: crlf s := rfl

/-- Any other character stays as it is. -/
theorem crlf_cons {c : Char} (hc : c ≠ '\n') (s : List Char) : crlf (c :: s) = c :: crlf s := by
  simp [crlf, hc]

/-- The line feeds of two texts are changed one after the other. -/
@[simp] theorem crlf_append (s t : List Char) : crlf (s ++ t) = crlf s ++ crlf t := by
  simp [crlf]

/-- A text on one line stays as it is. -/
theorem crlf_eq_self {s : List Char} (h : '\n' ∉ s) : crlf s = s := by
  induction s with
  | nil => rfl
  | cons c s ih =>
    rw [List.mem_cons, not_or] at h
    rw [crlf_cons (Ne.symm h.1), ih h.2]

/-- The first character of a text stays the same, but for a line feed. -/
theorem head?_crlf (s : List Char) :
    (crlf s).head? = if s.head? = some '\n' then some '\r' else s.head? := by
  cases s with
  | nil => rfl
  | cons c s =>
    by_cases hc : c = '\n'
    · simp [hc]
    · simp [crlf_cons hc, hc]

/-- No line feed is lost, and none is added. -/
theorem mem_crlf {s : List Char} : '\n' ∈ crlf s ↔ '\n' ∈ s := by
  simp only [crlf, List.mem_flatMap]
  constructor
  · rintro ⟨c, hc, hmem⟩
    split at hmem
    · next hfeed => rwa [hfeed] at hc
    · rwa [List.mem_singleton.mp hmem]
  · exact fun h => ⟨'\n', h, by simp⟩

/-- Only a text without line feeds becomes one without. -/
theorem crlf_eq_iff {s t : List Char} (ht : '\n' ∉ t) : crlf s = t ↔ s = t := by
  constructor
  · rintro rfl
    exact (crlf_eq_self fun h => ht (mem_crlf.mpr h)).symm
  · rintro rfl
    exact crlf_eq_self ht

/-- A text starts as before with anything but the end of a line. -/
theorem head?_crlf_eq_iff {s : List Char} {c : Char} (hfeed : c ≠ '\n') (hreturn : c ≠ '\r') :
    (crlf s).head? = some c ↔ s.head? = some c := by
  rw [head?_crlf]
  split
  · next h => simp [h, hreturn.symm, hfeed.symm]
  · rfl

/-- A text starts with a digit when it did before. -/
theorem head?_any_crlf (s : List Char) :
    (crlf s).head?.any Char.isDigit = s.head?.any Char.isDigit := by
  rw [head?_crlf]
  split
  · next h =>
    rw [h]
    rfl
  · rfl

/-- The first line of a text stays as it is, up to its end. -/
theorem crlf_eq_line_append (s : List Char) :
    crlf s = s.takeWhile (· != '\n') ++ crlf (s.dropWhile (· != '\n')) := by
  have hsplit := crlf_append (s.takeWhile (· != '\n')) (s.dropWhile (· != '\n'))
  rwa [List.takeWhile_append_dropWhile, crlf_eq_self (Script.notMem_takeWhile_line s)] at hsplit

/-- Neither a line feed nor a carriage return goes on with a run of other characters. -/
theorem span_crlf {p : Char → Bool} (hfeed : p '\n' = false) (hreturn : p '\r' = false)
    (s : List Char) :
    (crlf s).takeWhile p = s.takeWhile p ∧ (crlf s).dropWhile p = crlf (s.dropWhile p) := by
  induction s with
  | nil => exact ⟨rfl, rfl⟩
  | cons c s ih =>
    by_cases hc : c = '\n'
    · subst hc
      simp [hfeed, hreturn]
    · rw [crlf_cons hc]
      by_cases hp : p c = true
      · simp [hp, ih]
      · simp [hp, crlf_cons hc]

end Text

namespace Script

open Text

/-! ### Gaps -/

/-- A block comment ends at the same place. -/
private theorem commentTail_crlf (s : List Char) :
    commentTail (crlf s) = (commentTail s).map (Prod.map crlf crlf) := by
  induction s using commentTail.induct with
  | case1 => rfl
  | case2 s =>
    rw [crlf_cons (by decide), crlf_cons (by decide)]
    rfl
  | case3 c s hs ih =>
    rw [commentTail.eq_3 _ _ hs, Option.map_map]
    by_cases hc : c = '\n'
    · subst hc
      rw [crlf_feed, commentTail.eq_3 _ _ (by simp), commentTail.eq_3 _ _ (by simp), ih,
        Option.map_map, Option.map_map]
      rfl
    · have hs' : ∀ t, c = '*' → crlf s = '/' :: t → False := by
        intro t hstar ht
        have hhead := (head?_crlf_eq_iff (c := '/') (by decide) (by decide)).mp (by rw [ht]; rfl)
        obtain ⟨u, rfl⟩ := List.head?_eq_some_iff.mp hhead
        exact hs u hstar rfl
      rw [crlf_cons hc, commentTail.eq_3 _ _ hs', ih, Option.map_map]
      congr 1
      funext read
      simp [crlf_cons hc]

/-- Where no separator starts, none starts with the other line ends. -/
private theorem separator?_crlf_eq_none {s : List Char} (h : separator? s = none) :
    separator? (crlf s) = none := by
  cases s with
  | nil => rfl
  | cons c s =>
    have hspace := not_isSpace_of_separator?_eq_none h
    have hfeed : c ≠ '\n' := by
      rintro rfl
      exact absurd hspace (by decide)
    rw [crlf_cons hfeed]
    by_cases hopens : c = '/' ∧ s.head? = some '*'
    · obtain ⟨rfl, hhead⟩ := hopens
      obtain ⟨t, rfl⟩ := List.head?_eq_some_iff.mp hhead
      rw [separator?, Option.map_eq_none_iff] at h
      rw [crlf_cons (by decide), separator?, commentTail_crlf, h]
      rfl
    · refine separator?_eq_none _ hspace fun hslash => ⟨?_, ?_⟩
      · subst hslash
        rw [ne_eq, head?_crlf_eq_iff (by decide) (by decide)]
        exact head?_ne_slash_of_separator?_eq_none h
      · rw [ne_eq, head?_crlf_eq_iff (by decide) (by decide)]
        exact fun hhead => hopens ⟨hslash, hhead⟩

/-- A gap is skipped up to the same place. -/
theorem gap_crlf (s : List Char) : gap (crlf s) = (crlf (gap s).1, crlf (gap s).2) := by
  induction hn : s.length using Nat.strongRecOn generalizing s with
  | ind n ih =>
    subst hn
    cases hsep : separator? s with
    | none =>
      rw [gap_of_separator?_eq_none hsep, gap_of_separator?_eq_none (separator?_crlf_eq_none hsep)]
      rfl
    | some cut =>
      obtain ⟨text, rest⟩ := cut
      have htail := ih _ (separator?_length hsep) rest rfl
      rw [gap_of_separator?_eq_some hsep]
      cases separator?_eq_some_iff.mp hsep with
      | @space c s hc =>
        by_cases hfeed : c = '\n'
        · subst hfeed
          rw [crlf_feed, gap_space (by decide), gap_space (by decide), htail]
          rfl
        · rw [crlf_cons hfeed, gap_space hc, htail]
          simp [crlf_cons hfeed]
      | line s =>
        have hline := notMem_takeWhile_line s
        have hend := dropWhile_line s
        have hs : s.takeWhile (· != '\n') ++ s.dropWhile (· != '\n') = s :=
          List.takeWhile_append_dropWhile
        generalize s.takeWhile (· != '\n') = line at hline hs
        generalize s.dropWhile (· != '\n') = rest at hend hs htail
        subst hs
        rw [crlf_cons (by decide), crlf_cons (by decide), crlf_append, crlf_eq_self hline]
        rcases hend with rfl | hhead
        · rw [crlf_nil, gap_of_separator?_eq_some (separator?_line hline (.inl rfl))]
          have hnil := gap_of_separator?_eq_none (s := []) rfl
          simp [hnil, crlf_cons, crlf_eq_self hline]
        · obtain ⟨t, rfl⟩ := List.head?_eq_some_iff.mp hhead
          -- the comment takes the carriage return along, and the line feed is a space as before
          have hreturn : '\n' ∉ line ++ ['\r'] := by simp [hline]
          have hcut : separator? ('/' :: '/' :: (line ++ ['\r'] ++ '\n' :: crlf t)) =
              some ('/' :: '/' :: (line ++ ['\r']), '\n' :: crlf t) :=
            separator?_line hreturn (.inr rfl)
          rw [List.append_assoc, List.singleton_append] at hcut
          rw [crlf_feed, gap_space (by decide), gap_space (by decide)] at htail
          obtain ⟨hskipped, hafter⟩ := Prod.mk.inj htail
          rw [crlf_feed, gap_of_separator?_eq_some hcut, gap_space (by decide), hafter, crlf_append,
            ← hskipped]
          simp [crlf_cons, crlf_eq_self hline]
      | @block s text rest h =>
        have hcomment := commentTail_crlf s
        rw [h] at hcomment
        have hcut := separator?_eq_some_iff.mpr (.block hcomment)
        rw [crlf_cons (by decide), crlf_cons (by decide), gap_of_separator?_eq_some hcut, htail]
        simp [crlf_cons]

/-! ### Outcomes under a condition -/

/-- That an outcome is this value under a condition, and nothing otherwise. -/
def Gives {α : Type} (p : Prop) (x : Option α) (a : α) : Prop := (p → x = some a) ∧ (¬p → x = none)

namespace Gives

variable {α β : Type} {p q : Prop} {x : Option α} {a : α}

/-- What is a value under a condition that holds is that value. -/
theorem of_eq_some (hp : p) (hx : x = some a) : Gives p x a := ⟨fun _ => hx, fun h => absurd hp h⟩

/-- An outcome under a condition is one under a condition that says the same. -/
theorem congr (h : Gives p x a) (hiff : q ↔ p) : Gives q x a :=
  ⟨fun hq => h.1 (hiff.mp hq), fun hq => h.2 fun hp => hq (hiff.mpr hp)⟩

/-- An outcome under a condition is mapped by mapping its value. -/
theorem map (h : Gives p x a) (f : α → β) : Gives p (x.map f) (f a) :=
  ⟨fun hp => by rw [h.1 hp]; rfl, fun hp => by rw [h.2 hp]; rfl⟩

/-- There is a value exactly when the condition holds. -/
theorem eq_some_iff (h : Gives p x a) : x = some a ↔ p := by
  refine ⟨fun hx => ?_, h.1⟩
  by_contra hp
  exact absurd (h.2 hp) (by simp [hx])

/-- There is no value exactly when the condition does not hold. -/
theorem eq_none_iff (h : Gives p x a) : x = none ↔ ¬p := by
  refine ⟨fun hx hp => ?_, h.2⟩
  exact absurd (h.1 hp) (by simp [hx])

/-- Two steps give a value when both conditions hold. -/
theorem bind {f : α → Option β} {b : β} (h : Gives p x a) (hf : Gives q (f a) b) :
    Gives (p ∧ q) (x.bind f) b := by
  by_cases hp : p
  · rw [h.1 hp]
    exact hf.congr (and_iff_right hp)
  · rw [h.2 hp]
    exact ⟨fun hpq => absurd hpq.1 hp, fun _ => rfl⟩

end Gives

/-! ### The parts of a script -/

/-- A string is read again when it has no line feed in it. -/
theorem stringTail_crlf {quote : Char} {s text rest : List Char}
    (h : stringTail quote s = .ok (text, rest)) :
    Gives ('\n' ∉ text) (stringTail quote (crlf s)).toOption (crlf text, crlf rest) := by
  fun_induction stringTail quote s generalizing text rest with
  | case1 => exact absurd h (by simp)
  | case2 => exact absurd h (by simp)
  | case3 => exact absurd h (by simp)
  | case4 c s ih =>
    obtain ⟨⟨tail, after⟩, hs, heq⟩ := Except.map_eq_ok_iff.mp h
    cases heq
    by_cases hc : c = '\n'
    · subst hc
      exact ⟨fun hfeed => absurd (by simp) hfeed, fun _ => rfl⟩
    · rw [crlf_cons (by decide), crlf_cons hc, stringTail, Except.toOption_map]
      have hread := (ih hs).map fun read => ('\\' :: c :: read.1, read.2)
      rw [crlf_cons (by decide), crlf_cons hc]
      exact hread.congr (by simp [Ne.symm hc])
  | case5 s hfeed hlone hpair =>
    cases h
    rw [crlf_cons hfeed, stringTail_cons _ hfeed (ne_backslash hlone hpair), if_pos rfl,
      crlf_cons hfeed]
    exact .of_eq_some (by simpa using Ne.symm hfeed) rfl
  | case6 c s hfeed hlone hpair hne ih =>
    obtain ⟨⟨tail, after⟩, hs, heq⟩ := Except.map_eq_ok_iff.mp h
    cases heq
    rw [crlf_cons hfeed, stringTail_cons _ hfeed (ne_backslash hlone hpair), if_neg hne,
      Except.toOption_map, crlf_cons hfeed]
    exact ((ih hs).map _).congr (by simp [Ne.symm hfeed])

/-- A regular expression is read again when it has no line feed in it. -/
theorem regexTail_crlf {inClass : Bool} {s text rest : List Char}
    (h : regexTail inClass s = .ok (text, rest)) :
    Gives ('\n' ∉ text) (regexTail inClass (crlf s)).toOption (crlf text, crlf rest) := by
  fun_induction regexTail inClass s generalizing text rest with
  | case1 => exact absurd h (by simp)
  | case2 => exact absurd h (by simp)
  | case3 => exact absurd h (by simp)
  | case4 inClass c s ih =>
    obtain ⟨⟨tail, after⟩, hs, heq⟩ := Except.map_eq_ok_iff.mp h
    cases heq
    by_cases hc : c = '\n'
    · subst hc
      exact ⟨fun hfeed => absurd (by simp) hfeed, fun _ => rfl⟩
    · rw [crlf_cons (by decide), crlf_cons hc, regexTail, Except.toOption_map]
      have hread := (ih hs).map fun read => ('\\' :: c :: read.1, read.2)
      rw [crlf_cons (by decide), crlf_cons hc]
      exact hread.congr (by simp [Ne.symm hc])
  | case5 inClass c s hfeed hlone hpair hclose =>
    cases h
    obtain ⟨htake, hdrop⟩ := span_crlf (p := isNamePart) (by decide) (by decide) s
    have hflags : '\n' ∉ s.takeWhile isNamePart := fun hmem =>
      absurd (List.mem_takeWhile_imp hmem) (by decide)
    rw [crlf_cons hfeed, regexTail_cons _ hfeed (ne_backslash hlone hpair), if_pos hclose, htake,
      hdrop, crlf_cons hfeed, crlf_eq_self hflags]
    exact .of_eq_some (by simp [Ne.symm hfeed, hflags]) rfl
  | case6 inClass c s hfeed hlone hpair hclose inClass' =>
    rename_i ih
    obtain ⟨⟨tail, after⟩, hs, heq⟩ := Except.map_eq_ok_iff.mp h
    cases heq
    rw [crlf_cons hfeed, regexTail_cons _ hfeed (ne_backslash hlone hpair), if_neg hclose,
      Except.toOption_map, crlf_cons hfeed]
    exact ((ih hs).map _).congr (by simp [Ne.symm hfeed])

/-- A number has no line feed in it. -/
private theorem numberTail_crlf (hex : Bool) (before : Char) (s : List Char) :
    numberTail hex before (crlf s) = (crlf (numberTail hex before s).1,
      crlf (numberTail hex before s).2) := by
  induction s generalizing before with
  | nil => rfl
  | cons c s ih =>
    by_cases hc : c = '\n'
    · subst hc
      have hreturn : continuesNumber hex before '\r' = false :=
        continuesNumber_of_isNeutral (by decide)
      have hfeed : continuesNumber hex before '\n' = false :=
        continuesNumber_of_isNeutral (by decide)
      rw [crlf_feed, numberTail_cons, if_neg (by simp [hreturn]), numberTail_cons,
        if_neg (by simp [hfeed])]
      rfl
    · rw [crlf_cons hc, numberTail_cons, numberTail_cons, ih]
      split
      · rw [crlf_cons hc]
      · rw [crlf_nil, crlf_cons hc]

/-- A number ends before a line feed, with a carriage return or without. -/
theorem number_crlf {c : Char} (hc : c ≠ '\n') (s : List Char) :
    number c (crlf s) = (crlf (number c s).1, crlf (number c s).2) := by
  have hhex : hexAfter c (crlf s) = hexAfter c s := by
    have hhead (d : Char) (hd : d ≠ '\n' ∧ d ≠ '\r') :
        ((crlf s).head? == some d) = (s.head? == some d) := by
      rw [Bool.eq_iff_iff, beq_iff_eq, beq_iff_eq, head?_crlf_eq_iff hd.1 hd.2]
    rw [hexAfter, hexAfter, hhead 'x' (by decide), hhead 'X' (by decide)]
  rw [number_eq, number_eq, hhex, numberTail_crlf, crlf_cons hc]

/-- A punctuation has no line feed in it. -/
theorem punctuation_crlf {c : Char} (hc : c ≠ '\n') (s : List Char) :
    punctuation c (crlf s) = (crlf (punctuation c s).1, crlf (punctuation c s).2) := by
  have hread := punctuationRead c s
  generalize (punctuation c s).1 = text at hread
  generalize (punctuation c s).2 = rest at hread
  cases hread with
  | points => rfl
  | arrow => rfl
  | single hpoint harrow =>
    rw [crlf_cons hc]
    refine punctuation_single (fun hdot t ht => ?_) fun hequals => ?_
    · have hfirst := (head?_crlf_eq_iff (c := '.') (by decide) (by decide)).mp (by rw [ht]; rfl)
      obtain ⟨u, rfl⟩ := List.head?_eq_some_iff.mp hfirst
      rw [crlf_cons (by decide)] at ht
      have hsecond := (head?_crlf_eq_iff (c := '.') (by decide) (by decide)).mp
        (by rw [(List.cons.inj ht).2]; rfl)
      obtain ⟨v, rfl⟩ := List.head?_eq_some_iff.mp hsecond
      exact hpoint hdot v rfl
    · rw [ne_eq, head?_crlf_eq_iff (by decide) (by decide)]
      exact harrow hequals

end Script

end Reclass
