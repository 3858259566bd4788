import Reclass.Proofs.Script.Parts

/-!
# Skipping gaps again

A gap is made of spaces and comments. Behind a gap none of them starts, and a gap that a token
followed is skipped again, whatever follows it.
-/

namespace Reclass.Script

/-- A space separates tokens. -/
theorem separator?_space {c : Char} (s : List Char) (hc : isSpace c = true) :
    separator? (c :: s) = some ([c], s) := by
  have hslash : c ≠ '/' := by
    rintro rfl
    exact absurd hc (by decide)
  unfold separator?
  split
  · next h => exact absurd h (by simp)
  · next h => exact absurd (List.cons.inj h).1 hslash
  · next h => exact absurd (List.cons.inj h).1 hslash
  · next h =>
    cases h
    rw [if_pos hc]

/-- What a separator can be. -/
inductive SeparatorRead : List Char → List Char → List Char → Prop
  | space {c : Char} {s : List Char} (hc : isSpace c = true) : SeparatorRead (c :: s) [c] s
  | line (s : List Char) :
      SeparatorRead ('/' :: '/' :: s) ('/' :: '/' :: s.takeWhile (· != '\n'))
        (s.dropWhile (· != '\n'))
  | block {s text rest : List Char} (h : commentTail s = some (text, rest)) :
      SeparatorRead ('/' :: '*' :: s) ('/' :: '*' :: text) rest

/-- A separator is cut off exactly in these ways. -/
theorem separator?_eq_some_iff {s text rest : List Char} :
    separator? s = some (text, rest) ↔ SeparatorRead s text rest := by
  constructor
  · intro h
    unfold separator? at h
    split at h
    · exact absurd h (by simp)
    · cases h
      exact .line _
    · obtain ⟨⟨comment, after⟩, hs, heq⟩ := Option.map_eq_some_iff.mp h
      cases heq
      exact .block hs
    · split at h
      · next hc =>
        cases h
        exact .space hc
      · exact absurd h (by simp)
  · intro h
    cases h with
    | space hc => exact separator?_space _ hc
    | line s => rfl
    | block h => simp [separator?, h]

/-- No separator starts with a character that is neither a space nor a slash. -/
theorem separator?_eq_none {c : Char} (s : List Char) (hspace : isSpace c = false)
    (hslash : c = '/' → s.head? ≠ some '/' ∧ s.head? ≠ some '*') : separator? (c :: s) = none := by
  rw [Option.eq_none_iff_forall_ne_some]
  rintro ⟨text, rest⟩ h
  cases separator?_eq_some_iff.mp h with
  | space hc => exact absurd hc (by simp [hspace])
  | line t => exact (hslash rfl).1 rfl
  | block h => exact (hslash rfl).2 rfl

/-- Behind a gap no separator starts. -/
theorem separator?_gap (s : List Char) : separator? (gap s).2 = none := by
  induction hn : s.length using Nat.strongRecOn generalizing s with
  | ind n ih =>
    subst hn
    rw [gap]
    split
    · next h => exact h
    · next text rest h => exact ih _ (separator?_length h) rest rfl

/-- Where nothing separates tokens there is no gap. -/
theorem gap_of_separator?_eq_none {s : List Char} (h : separator? s = none) : gap s = ([], s) := by
  rw [gap]
  split
  · rfl
  · next h' => exact absurd (h.symm.trans h') (by simp)

/-- A gap is a first separator and the gap behind it. -/
theorem gap_of_separator?_eq_some {s text rest : List Char} (h : separator? s = some (text, rest)) :
    gap s = (text ++ (gap rest).1, (gap rest).2) := by
  rw [gap]
  split
  · next h' => exact absurd (h.symm.trans h') (by simp)
  · next h' =>
    cases h.symm.trans h'
    rfl

/-- A space is skipped. -/
theorem gap_space {c : Char} (hc : isSpace c = true) (s : List Char) :
    gap (c :: s) = (c :: (gap s).1, (gap s).2) :=
  gap_of_separator?_eq_some (separator?_space s hc)

private theorem commentTail_ne_nil {s text rest : List Char}
    (h : commentTail s = some (text, rest)) : text ≠ [] := by
  cases s using commentTail.fun_cases with
  | case1 => simp [commentTail] at h
  | case2 s =>
    simp only [commentTail, Option.some.injEq, Prod.mk.injEq] at h
    simp [← h.1]
  | case3 c s hs =>
    rw [commentTail.eq_3 _ _ hs] at h
    obtain ⟨⟨tail, after⟩, _, heq⟩ := Option.map_eq_some_iff.mp h
    cases heq
    simp

/-- A block comment ends at the same place again, whatever follows it. -/
theorem commentTail_again {s text rest : List Char} (h : commentTail s = some (text, rest))
    (rest' : List Char) : commentTail (text ++ rest') = some (text, rest') := by
  induction s using commentTail.induct generalizing text rest with
  | case1 => simp [commentTail] at h
  | case2 s =>
    simp only [commentTail, Option.some.injEq, Prod.mk.injEq] at h
    obtain ⟨rfl, rfl⟩ := h
    rfl
  | case3 c s hs ih =>
    rw [commentTail.eq_3 _ _ hs] at h
    obtain ⟨⟨tail, after⟩, h', heq⟩ := Option.map_eq_some_iff.mp h
    obtain ⟨rfl, rfl⟩ := Prod.mk.inj heq
    have htail : ∀ t, c = '*' → tail ++ rest' = '/' :: t → False := by
      intro t hc ht
      cases htail : tail with
      | nil => exact commentTail_ne_nil h' htail
      | cons d u =>
        rw [htail, List.cons_append] at ht
        have hslash : s = '/' :: (u ++ after) := by
          rw [commentTail_append h', htail, (List.cons.inj ht).1, List.cons_append]
        exact hs (u ++ after) hc hslash
    rw [List.cons_append, commentTail.eq_3 _ _ htail, ih h']
    rfl

/-- What is left behind a line is nothing, or starts with the line feed that ends it. -/
theorem dropWhile_line (s : List Char) :
    s.dropWhile (· != '\n') = [] ∨ (s.dropWhile (· != '\n')).head? = some '\n' := by
  cases hdrop : s.dropWhile (· != '\n') with
  | nil => exact .inl rfl
  | cons c t =>
    have hc := head?_dropWhile_eq_false (p := (· != '\n')) s c (by rw [hdrop]; rfl)
    exact .inr (by simpa using hc)

/-- The text up to the end of a line has no line feed. -/
theorem notMem_takeWhile_line (s : List Char) : '\n' ∉ s.takeWhile (· != '\n') := by
  intro hfeed
  simpa using List.mem_takeWhile_imp hfeed

/-- A separator is cut off again before another text. Only a comment that runs to the end of its
line needs that end again. -/
theorem separator?_again {s text rest rest' : List Char} (h : separator? s = some (text, rest))
    (hrest : rest = [] ∨ rest.head? = some '\n' → rest' = [] ∨ rest'.head? = some '\n') :
    separator? (text ++ rest') = some (text, rest') := by
  rw [separator?_eq_some_iff] at h
  cases h with
  | space hc => exact separator?_space rest' hc
  | line s =>
    have hhead : ∀ c ∈ rest'.head?, (c != '\n') = false := by
      intro c hc
      rcases hrest (dropWhile_line s) with h | h
      · simp [h] at hc
      · simpa [h] using hc.symm
    obtain ⟨htake, hdrop⟩ := takeWhile_append_of_head s hhead
    simp only [List.cons_append, separator?, htake, hdrop]
  | block h => simp [separator?, commentTail_again h]

/-- A line comment is cut off at the end of its line. -/
theorem separator?_line {line rest : List Char} (hline : '\n' ∉ line)
    (hend : rest = [] ∨ rest.head? = some '\n') :
    separator? ('/' :: '/' :: (line ++ rest)) = some ('/' :: '/' :: line, rest) := by
  have hall : ∀ c ∈ line, (c != '\n') = true := by
    intro c hc
    rw [bne_iff_ne]
    rintro rfl
    exact hline hc
  rw [separator?_eq_some_iff]
  have hcut := SeparatorRead.line (line ++ rest)
  rw [List.takeWhile_append_of_pos hall, List.dropWhile_append_of_pos hall] at hcut
  rcases hend with rfl | hhead
  · simpa using hcut
  · obtain ⟨t, rfl⟩ := List.head?_eq_some_iff.mp hhead
    simpa using hcut

/-- A gap is skipped again, whatever follows it, when a token followed it. -/
theorem gap_again {s skipped after : List Char} {c : Char} (h : gap s = (skipped, c :: after))
    (rest' : List Char) : gap (skipped ++ rest') = (skipped ++ (gap rest').1, (gap rest').2) := by
  induction hn : s.length using Nat.strongRecOn generalizing s skipped with
  | ind n ih =>
    subst hn
    cases hsep : separator? s with
    | none =>
      rw [gap_of_separator?_eq_none hsep] at h
      cases h
      rfl
    | some cut =>
      obtain ⟨text, rest⟩ := cut
      rw [gap_of_separator?_eq_some hsep] at h
      obtain ⟨hskipped, hafter⟩ := Prod.mk.inj h
      have hgap : gap rest = ((gap rest).1, c :: after) := Prod.ext rfl hafter
      have hrest : (gap rest).1 ++ c :: after = rest := hafter ▸ gap_append rest
      have hc : c ≠ '\n' := by
        rintro rfl
        have hnone := separator?_gap rest
        rw [hafter, separator?_space after (by decide)] at hnone
        exact absurd hnone (by simp)
      have hagain : separator? (text ++ ((gap rest).1 ++ rest')) =
          some (text, (gap rest).1 ++ rest') := by
        refine separator?_again hsep fun hend => ?_
        rw [← hrest] at hend
        cases hfirst : (gap rest).1 with
        | nil => simp [hfirst, hc] at hend
        | cons d t => simpa [hfirst] using hend
      rw [← hskipped, List.append_assoc, gap_of_separator?_eq_some hagain,
        ih _ (separator?_length hsep) hgap rfl]
      simp

/-- Where nothing separates tokens there is no space. -/
theorem not_isSpace_of_separator?_eq_none {c : Char} {s : List Char}
    (h : separator? (c :: s) = none) : isSpace c = false := by
  by_contra hc
  rw [separator?_space s (by simpa using hc)] at h
  exact absurd h (by simp)

/-- Where nothing separates tokens no line comment starts. -/
theorem head?_ne_slash_of_separator?_eq_none {s : List Char} (h : separator? ('/' :: s) = none) :
    s.head? ≠ some '/' := by
  intro hhead
  obtain ⟨t, rfl⟩ := List.head?_eq_some_iff.mp hhead
  exact absurd h (by simp [separator?])

end Reclass.Script
