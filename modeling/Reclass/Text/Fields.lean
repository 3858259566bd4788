/-!
# Fields and occurrences

A text is cut into fields at every separator, and `join` puts the separators back. One text occurs
in another when it starts at one of its places.
-/

namespace Reclass.Text

/-- The fields between the separators; there is always one more field than separators. -/
def fields (sep : Char) : List Char → List (List Char)
  | [] => [[]]
  | c :: s =>
    if c = sep then [] :: fields sep s
    else match fields sep s with
      | [] => [[c]]
      | field :: rest => (c :: field) :: rest

/-- The fields with a separator between each two. -/
def join (sep : Char) : List (List Char) → List Char
  | [] => []
  | [field] => field
  | field :: rest => field ++ sep :: join sep rest

/-- Every text has a field, the empty one too. -/
theorem fields_ne_nil (sep : Char) (s : List Char) : fields sep s ≠ [] := by
  cases s with
  | nil => simp [fields]
  | cons c s =>
    simp only [fields]
    split
    · simp
    · split <;> simp

/-- Joining the fields of a text gives the text back. -/
theorem join_fields (sep : Char) (s : List Char) : join sep (fields sep s) = s := by
  induction s with
  | nil => rfl
  | cons c s ih =>
    cases hfields : fields sep s with
    | nil => exact absurd hfields (fields_ne_nil sep s)
    | cons field rest =>
      rw [hfields] at ih
      by_cases hc : c = sep
      · subst hc
        simp only [fields, if_pos, hfields, join, List.nil_append, ih]
      · simp only [fields, if_neg hc, hfields]
        cases rest with
        | nil => simpa [join] using ih
        | cons next rest => simpa [join] using ih

/-- A last field is joined behind one more separator. -/
theorem join_concat {sep : Char} {parts : List (List Char)} (hne : parts ≠ [])
    (last : List Char) : join sep (parts ++ [last]) = join sep parts ++ sep :: last := by
  fun_induction join sep parts with
  | case1 => exact absurd rfl hne
  | case2 part => rfl
  | case3 part rest hrest ih =>
    obtain ⟨next, others, rfl⟩ := List.exists_cons_of_ne_nil hrest
    rw [List.append_assoc]
    exact congrArg (part ++ sep :: ·) (ih hrest)

/-- At a separator a text falls into the fields before it and those behind it. -/
theorem fields_append (sep : Char) (s t : List Char) :
    fields sep (s ++ sep :: t) = fields sep s ++ fields sep t := by
  induction s with
  | nil => simp [fields]
  | cons c s ih =>
    by_cases hc : c = sep
    · simp only [List.cons_append, fields, if_pos hc, ih]
    · cases hfields : fields sep s with
      | nil => exact absurd hfields (fields_ne_nil sep s)
      | cons field rest =>
        rw [hfields] at ih
        simp only [List.cons_append, fields, if_neg hc, ih, hfields]

/-- A text without separators is one field. -/
theorem fields_of_notMem {sep : Char} {s : List Char} (h : sep ∉ s) : fields sep s = [s] := by
  induction s with
  | nil => rfl
  | cons c s ih =>
    simp only [List.mem_cons, not_or] at h
    simp only [fields, if_neg (Ne.symm h.1), ih h.2]

/-- No field holds a separator. -/
theorem notMem_of_mem_fields {sep : Char} {s field : List Char} (h : field ∈ fields sep s) :
    sep ∉ field := by
  induction s generalizing field with
  | nil =>
    obtain rfl := List.mem_singleton.mp h
    exact List.not_mem_nil
  | cons c s ih =>
    by_cases hc : c = sep
    · rw [fields, if_pos hc] at h
      obtain rfl | h := List.mem_cons.mp h
      · exact List.not_mem_nil
      · exact ih h
    · cases hfields : fields sep s with
      | nil => exact absurd hfields (fields_ne_nil sep s)
      | cons first rest =>
        rw [hfields] at ih
        simp only [fields, if_neg hc, hfields] at h
        obtain rfl | h := List.mem_cons.mp h
        · exact List.not_mem_cons_of_ne_of_not_mem (Ne.symm hc) (ih List.mem_cons_self)
        · exact ih (List.mem_cons_of_mem _ h)

/-- Fields that hold no separator are found again when they have been joined. -/
theorem fields_join {sep : Char} {parts : List (List Char)} (hne : parts ≠ [])
    (h : ∀ part ∈ parts, sep ∉ part) : fields sep (join sep parts) = parts := by
  fun_induction join sep parts with
  | case1 => exact absurd rfl hne
  | case2 part => exact fields_of_notMem (h part List.mem_cons_self)
  | case3 part rest hrest ih =>
    have hfirst := fields_of_notMem (h part List.mem_cons_self)
    have hothers := ih hrest fun other hother => h other (List.mem_cons_of_mem _ hother)
    rw [fields_append, hfirst, hothers, List.singleton_append]

/-- Whether `word` starts at one of the places of the text. -/
def occursIn (word : List Char) : List Char → Bool
  | [] => word.isEmpty
  | c :: s => word.isPrefixOf (c :: s) || occursIn word s

/-- A word occurs in a text when it stands somewhere in it. -/
theorem occursIn_iff {word s : List Char} : occursIn word s = true ↔ word <:+: s := by
  induction s with
  | nil => simp [occursIn]
  | cons c s ih =>
    rw [occursIn, Bool.or_eq_true, ih, List.isPrefixOf_iff_prefix, List.infix_cons_iff]

end Reclass.Text
