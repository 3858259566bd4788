import Reclass.Proofs.Renaming.SinglePass
import Reclass.Text.Position

/-!
# Renaming by a search for alternatives

A table can also be used through a search that is given the old names as alternatives. The names are
the keys of a table that finds the entry for a name. They are sorted by their length in bytes, so
that the first one that stands somewhere is the longest. Each entry that is used is marked, over all
texts, and what is marked in the end is imported. This renames every text in the same pass, and
imports the same entries.
-/

namespace Reclass

namespace RenamingTable

/-! ### The search -/

/-- The first of some alternatives that a text starts with. -/
def alternativeAt? (names : List String) (s : List Char) : Option String :=
  names.find? fun name => name.toList.isPrefixOf s

/-- What a search finds in a text: the characters before a match, the alternative that matches, and
the characters behind it. -/
abbrev Search := List String → List Char → Option (List Char × String × List Char)

/-- That a search finds the leftmost place at which one of the alternatives stands, and of those
that stand there the first. -/
structure LeftmostFirst (search : Search) : Prop where
  found : ∀ {names s before name after}, names ≠ [] →
    search names s = some (before, name, after) →
      s = before ++ (name.toList ++ after) ∧
      alternativeAt? names (name.toList ++ after) = some name ∧
      ∀ skipped rest, before = skipped ++ rest → rest ≠ [] →
        alternativeAt? names (rest ++ (name.toList ++ after)) = none
  notFound : ∀ {names s}, names ≠ [] → search names s = none →
    ∀ skipped rest, s = skipped ++ rest → alternativeAt? names rest = none

/-- The search that tries one place after the other, and at each place one alternative after the
other. -/
def searchFirst (names : List String) : List Char → Option (List Char × String × List Char)
  | [] => (alternativeAt? names []).map fun name => ([], name, [])
  | c :: s =>
    match alternativeAt? names (c :: s) with
    | some name => some ([], name, (c :: s).drop name.length)
    | none => (searchFirst names s).map fun (before, name, after) => (c :: before, name, after)

/-- An alternative that is found stands there. -/
theorem prefix_of_alternativeAt? {names : List String} {s : List Char} {name : String}
    (h : alternativeAt? names s = some name) : name.toList <+: s := by
  obtain ⟨hstarts, -⟩ := List.find?_eq_some_iff_append.mp h
  exact List.isPrefixOf_iff_prefix.mp hstarts

/-- The search that tries every place from the left, and there every alternative in its order, is
leftmost-first. -/
theorem searchFirst_leftmostFirst : LeftmostFirst searchFirst where
  found := by
    intro names s before name after _ h
    induction s generalizing before with
    | nil =>
      obtain ⟨name', hat, heq⟩ := Option.map_eq_some_iff.mp h
      cases heq
      have hempty := List.prefix_nil.mp (prefix_of_alternativeAt? hat)
      refine ⟨by simp [hempty], by simpa [hempty] using hat, fun skipped rest hsplit hne => ?_⟩
      exact absurd (List.append_eq_nil_iff.mp hsplit.symm).2 hne
    | cons c s ih =>
      rw [searchFirst] at h
      split at h
      · next hat =>
        cases h
        obtain ⟨rest, hrest⟩ := prefix_of_alternativeAt? hat
        have hdrop : (c :: s).drop name.length = rest := by
          rw [← hrest, ← String.length_toList, List.drop_left]
        rw [hdrop, hrest]
        refine ⟨rfl, hat, fun skipped rest hsplit hne => ?_⟩
        exact absurd (List.append_eq_nil_iff.mp hsplit.symm).2 hne
      · next hnone =>
        obtain ⟨⟨before', name', after'⟩, hfound, heq⟩ := Option.map_eq_some_iff.mp h
        cases heq
        obtain ⟨rfl, hat, hbefore⟩ := ih hfound
        refine ⟨rfl, hat, fun skipped rest hsplit hne => ?_⟩
        cases skipped with
        | nil =>
          cases hsplit
          exact hnone
        | cons d skipped => exact hbefore skipped rest (List.cons.inj hsplit).2 hne
  notFound := by
    intro names s _ h
    induction s with
    | nil =>
      rintro skipped rest hsplit
      obtain ⟨rfl, rfl⟩ := List.append_eq_nil_iff.mp hsplit.symm
      simpa [searchFirst] using h
    | cons c s ih =>
      rw [searchFirst] at h
      split at h
      · exact absurd h (by simp)
      · next hnone =>
        rintro skipped rest hsplit
        cases skipped with
        | nil =>
          cases hsplit
          exact hnone
        | cons d skipped =>
          exact ih (Option.map_eq_none_iff.mp h) skipped rest (List.cons.inj hsplit).2

/-- Replaces every match by what a function makes of it and of a state, one match after the other,
each behind the one before. Nothing is given when the function gives nothing, or at an empty
match. -/
def replaceAll {σ : Type} (search : Search) (names : List String)
    (replace : σ → String → Option (σ × String)) (state : σ) (s : List Char) :
    Option (σ × List Char) :=
  match search names s with
  | none => some (state, s)
  | some (before, name, after) =>
    if _h : after.length < s.length then do
      let (state, replacement) ← replace state name
      let (state, rest) ← replaceAll search names replace state after
      return (state, before ++ (replacement.toList ++ rest))
    else none
termination_by s.length

/-! ### The rewriter -/

/-- The index of the first entry for each old name that is not empty. -/
def slots (entries : List Renaming) : Std.HashMap String Nat :=
  entries.zipIdx.foldl (fun slots (entry, i) =>
    if entry.oldName.isEmpty || slots.contains entry.oldName then slots
    else slots.insert entry.oldName i) ∅

/-- The old names, those with more bytes first, and in alphabetical order when they have the
same number. -/
def alternatives (entries : List Renaming) : List String :=
  (slots entries).keys.mergeSort fun a b =>
    Text.byteLength b.toList < Text.byteLength a.toList ||
      (Text.byteLength b.toList == Text.byteLength a.toList && a ≤ b)

/-- Marks the entry for an old name that has been found, and gives its new name. -/
def fire (entries : List Renaming) (fired : List Bool) (name : String) :
    Option (List Bool × String) := do
  let slot ← (slots entries)[name]?
  let entry ← entries[slot]?
  return (fired.set slot true, entry.name)

/-- Renames one text. -/
def rewrite (search : Search) (entries : List Renaming) (fired : List Bool) (text : String) :
    Option (List Bool × String) :=
  let names := alternatives entries
  if names.isEmpty then some (fired, text)
  else (replaceAll search names (fire entries) fired text.toList).map fun (fired, s) =>
    (fired, String.ofList s)

/-- Renames some texts, one after the other. -/
def rewriteEach (search : Search) (entries : List Renaming) (fired : List Bool) :
    List String → Option (List Bool × List String)
  | [] => some (fired, [])
  | text :: texts => do
    let (fired, text) ← rewrite search entries fired text
    let (fired, texts) ← rewriteEach search entries fired texts
    return (fired, text :: texts)

/-- The entries that are marked, the first ones for their new names only. -/
def importsOf (entries : List Renaming) (fired : List Bool) : List Renaming :=
  firstBy Renaming.name [] (((entries.zip fired).filter Prod.snd).map Prod.fst)

/-! ### The alternatives -/

variable {entries : List Renaming} {s : List Char}

/-- For an old name the entry in use is found. -/
theorem getElem?_slots (entries : List Renaming) (name : String) (i : Nat) :
    (slots entries)[name]? = some i ↔ ∃ entry, InUse entries i entry ∧ entry.oldName = name := by
  induction entries using List.reverseRecOn generalizing name i with
  | nil =>
    have hnone (entry : Renaming) : ¬InUse [] i entry := fun h => by simpa using h.index
    simp [slots, hnone]
  | append_singleton entries last ih =>
    have hconcat : slots (entries ++ [last]) =
        if last.oldName.isEmpty || (slots entries).contains last.oldName then slots entries
        else (slots entries).insert last.oldName entries.length := by
      simp [slots, List.zipIdx_append]
    have hcontains : (slots entries).contains last.oldName = true ↔
        ∃ i entry, InUse entries i entry ∧ entry.oldName = last.oldName := by
      simp only [Std.HashMap.contains_eq_isSome_getElem?, Option.isSome_iff_exists, ih]
    rw [hconcat]
    by_cases hskip : (last.oldName.isEmpty || (slots entries).contains last.oldName) = true
    · rw [if_pos hskip, ih]
      refine exists_congr fun entry => and_congr_left fun _ => ?_
      rw [InUse.concat_iff, or_iff_left]
      rintro ⟨-, -, hne, hnone⟩
      obtain ⟨j, other, hother, hname⟩ := hcontains.mp (by simpa [hne] using hskip)
      exact hnone other (List.mem_of_getElem? hother.index) hname
    · obtain ⟨hne, hnew⟩ : last.oldName ≠ "" ∧ ¬(slots entries).contains last.oldName = true := by
        simpa using hskip
      have hlast : InUse (entries ++ [last]) entries.length last := by
        refine InUse.concat_iff.mpr (.inr ⟨rfl, rfl, hne, fun other hother hname => hnew ?_⟩)
        obtain ⟨j, first, hfirst, hname'⟩ := InUse.exists_of_mem hother (hname ▸ hne)
        exact hcontains.mpr ⟨j, first, hfirst, hname'.trans hname⟩
      rw [if_neg hskip, Std.HashMap.getElem?_insert]
      by_cases hname : last.oldName = name
      · subst hname
        simp only [beq_self_eq_true, if_true, Option.some.injEq]
        constructor
        · rintro rfl
          exact ⟨last, hlast, rfl⟩
        · rintro ⟨entry, hentry, hname⟩
          exact (hlast.unique hentry hname.symm).1
      · rw [if_neg (by simpa using hname), ih]
        refine exists_congr fun entry => and_congr_left fun hentry => ?_
        rw [InUse.concat_iff, or_iff_left]
        rintro ⟨-, rfl, -⟩
        exact hname hentry

/-- The alternatives are the old names of the entries in use. -/
theorem mem_alternatives {name : String} :
    name ∈ alternatives entries ↔ ∃ i entry, InUse entries i entry ∧ entry.oldName = name := by
  simp only [alternatives, List.mem_mergeSort, Std.HashMap.mem_keys,
    Std.HashMap.mem_iff_isSome_getElem?, Option.isSome_iff_exists, getElem?_slots]

/-- No alternative has fewer bytes than one behind it. -/
theorem pairwise_alternatives (entries : List Renaming) :
    (alternatives entries).Pairwise fun a b =>
      Text.byteLength b.toList ≤ Text.byteLength a.toList := by
  refine (List.pairwise_mergeSort (fun a b c hab hbc => ?_) (fun a b => ?_) _).imp ?_
  · simp only [Bool.or_eq_true, decide_eq_true_eq, Bool.and_eq_true, beq_iff_eq] at hab hbc ⊢
    obtain hlt | ⟨heq, hle⟩ := hab <;> obtain hlt' | ⟨heq', hle'⟩ := hbc
    · exact .inl (by omega)
    · exact .inl (by omega)
    · exact .inl (by omega)
    · exact .inr ⟨by omega, String.le_trans hle hle'⟩
  · simp only [Bool.or_eq_true, decide_eq_true_eq, Bool.and_eq_true, beq_iff_eq]
    obtain hlt | heq | hgt :=
      Nat.lt_trichotomy (Text.byteLength a.toList) (Text.byteLength b.toList)
    · exact .inr (.inl hlt)
    · obtain hle | hle := String.le_total a b
      · exact .inl (.inr ⟨heq.symm, hle⟩)
      · exact .inr (.inr ⟨heq, hle⟩)
    · exact .inl (.inl hgt)
  · intro a b h
    simp only [Bool.or_eq_true, decide_eq_true_eq, Bool.and_eq_true, beq_iff_eq] at h
    omega

/-- The first alternative that a text starts with is the old name that is renamed there. -/
theorem alternativeAt?_cases (entries : List Renaming) (s : List Char) :
    (alternativeAt? (alternatives entries) s = none ∧
        ∀ entry ∈ entries, entry.oldName ≠ "" → ¬entry.oldName.toList <+: s) ∨
      ∃ i entry, alternativeAt? (alternatives entries) s = some entry.oldName ∧
        RenamesAt entries s i entry := by
  -- An old name that stands there is an alternative.
  have hmem (other : Renaming) (hother : other ∈ entries) (hne : other.oldName ≠ "") :
      other.oldName ∈ alternatives entries := by
    obtain ⟨j, first, hfirst, hname⟩ := InUse.exists_of_mem hother hne
    exact mem_alternatives.mpr ⟨j, first, hfirst, hname⟩
  cases hfind : alternativeAt? (alternatives entries) s with
  | none =>
    refine .inl ⟨rfl, fun entry hentry hne hstarts => ?_⟩
    have hnot := List.find?_eq_none.mp hfind _ (hmem entry hentry hne)
    exact hnot (List.isPrefixOf_iff_prefix.mpr hstarts)
  | some name =>
    obtain ⟨hstarts, before, after, hsplit, hbefore⟩ := List.find?_eq_some_iff_append.mp hfind
    have hstarts := List.isPrefixOf_iff_prefix.mp hstarts
    have hname : name ∈ alternatives entries := by simp [hsplit]
    obtain ⟨i, entry, hentry, rfl⟩ := mem_alternatives.mp hname
    refine .inr ⟨i, entry, rfl, hentry, hstarts, fun other hother hstarts' => ?_⟩
    by_cases hne : other.oldName = ""
    · simp [hne]
    have hbytes : Text.byteLength other.oldName.toList ≤ Text.byteLength entry.oldName.toList := by
      have hsorted := pairwise_alternatives entries
      have hat := hmem other hother hne
      rw [hsplit] at hsorted hat
      obtain hat | hat := List.mem_append.mp hat
      · have hnot := hbefore _ hat
        simp [List.isPrefixOf_iff_prefix.mpr hstarts'] at hnot
      · obtain heq | hat := List.mem_cons.mp hat
        · exact Nat.le_of_eq (by rw [heq])
        · exact (List.pairwise_cons.mp (List.pairwise_append.mp hsorted).2.1).1 _ hat
    -- Of two starts of one text the one with more characters has more bytes.
    by_contra hlt
    rw [← String.length_toList, ← String.length_toList, Nat.not_le] at hlt
    obtain ⟨rest, hrest⟩ := List.prefix_of_prefix_length_le hstarts hstarts' (Nat.le_of_lt hlt)
    have hne : rest ≠ [] := by
      rintro rfl
      simp [← hrest] at hlt
    have hpos := Text.byteLength_pos hne
    rw [← hrest, Text.byteLength_append] at hbytes
    omega

/-! ### Renaming one text -/

/-- Marks the entries at some indices. -/
def mark (fired : List Bool) (used : List Nat) : List Bool :=
  used.foldl (fun fired i => fired.set i true) fired

/-- Marking entries adds none. -/
@[simp] theorem length_mark (fired : List Bool) (used : List Nat) :
    (mark fired used).length = fired.length := by
  induction used generalizing fired with
  | nil => rfl
  | cons i used ih => rw [mark, List.foldl_cons, ← mark, ih, List.length_set]

/-- Marked are the entries that were marked before, and those at the given indices. -/
theorem getElem?_mark_eq_true (fired : List Bool) (used : List Nat) (i : Nat) :
    (mark fired used)[i]? = some true ↔ fired[i]? = some true ∨ (i < fired.length ∧ i ∈ used) := by
  induction used generalizing fired with
  | nil => simp [mark]
  | cons j used ih =>
    rw [mark, List.foldl_cons, ← mark, ih, List.getElem?_set, List.length_set]
    by_cases heq : j = i
    · subst heq
      by_cases hlt : j < fired.length <;> simp [hlt]
    · simp [heq, Ne.symm heq]

/-- The entry that renames what a text starts with is found by its old name and marked. -/
theorem RenamesAt.fire_eq {i : Nat} {entry : Renaming} (h : RenamesAt entries s i entry)
    (fired : List Bool) :
    fire entries fired entry.oldName = some (fired.set i true, entry.name) := by
  have hslot := (getElem?_slots entries entry.oldName i).mpr ⟨entry, h.inUse, rfl⟩
  simp [fire, hslot, h.inUse.index]

variable {search : Search}

/-- Replacing the alternatives in a text makes the pass over it, and marks the entries that the pass
uses. -/
theorem exists_pass_of_replaceAll (h : LeftmostFirst search) (hne : alternatives entries ≠ [])
    (fired : List Bool) (s : List Char) :
    ∃ result used, Pass entries s result used ∧
      replaceAll search (alternatives entries) (fire entries) fired s =
        some (mark fired used, result) := by
  -- Where no alternative stands, no old name does.
  have hnone {s : List Char} (hat : alternativeAt? (alternatives entries) s = none) :
      ∀ entry ∈ entries, entry.oldName ≠ "" → ¬entry.oldName.toList <+: s := by
    obtain ⟨-, hnone⟩ | ⟨i, entry, hsome, -⟩ := alternativeAt?_cases entries s
    · exact hnone
    · simp [hat] at hsome
  -- A match leaves out any number of characters before it, so the induction is on the length of
  -- what is left; the marks that have been made so far go along.
  induction hsize : s.length using Nat.strongRecOn generalizing fired s with
  | ind size ih =>
    cases hsearch : search (alternatives entries) s with
    | none =>
      refine ⟨s, [], ?_, by rw [replaceAll, hsearch]; rfl⟩
      have hpass := Pass.copied_append s (fun skipped rest hsplit _ => ?_)
        (.done : Pass entries [] [] [])
      · simpa using hpass
      · rw [List.append_nil]
        exact hnone (h.notFound hne hsearch skipped rest hsplit)
    | some found =>
      obtain ⟨before, name, after⟩ := found
      obtain ⟨rfl, hat, hbefore⟩ := h.found hne hsearch
      obtain ⟨hno, -⟩ | ⟨i, entry, hsome, hrenames⟩ :=
        alternativeAt?_cases entries (name.toList ++ after)
      · simp [hat] at hno
      obtain rfl : name = entry.oldName := Option.some.inj (hat.symm.trans hsome)
      have hlt : after.length < (before ++ (entry.oldName.toList ++ after)).length := by
        have hpos := List.length_pos_iff.mpr hrenames.inUse.toList_ne_nil
        simp only [List.length_append]
        omega
      obtain ⟨result, used, hpass, hreplaced⟩ :=
        ih after.length (hsize ▸ hlt) (fired.set i true) after rfl
      refine ⟨before ++ (entry.name.toList ++ result), i :: used, ?_, ?_⟩
      · exact .copied_append before (fun skipped rest hsplit hrest =>
          hnone (hbefore skipped rest hsplit hrest)) (.renamed hrenames hpass)
      · rw [replaceAll, hsearch]
        simp only [dif_pos hlt, hrenames.fire_eq, hreplaced, bind, Option.bind, pure]
        rfl

/-- Renaming a text by the search renames it, and marks the entries that the pass uses. -/
theorem rewrite_eq (h : LeftmostFirst search) (table : RenamingTable) (fired : List Bool)
    (text : String) :
    ∃ used, Pass table.entries text.toList (table.rename text).toList used ∧
      rewrite search table.entries fired text = some (mark fired used, table.rename text) := by
  obtain ⟨used, hall, -⟩ := table.pass_iff text
  by_cases hempty : alternatives table.entries = []
  · have hnone (s : List Char) (entry : Renaming) (hentry : entry ∈ table.entries)
        (hne : entry.oldName ≠ "") : ¬entry.oldName.toList <+: s := by
      intro _
      obtain ⟨j, first, hfirst, hname⟩ := InUse.exists_of_mem hentry hne
      have hmem := mem_alternatives.mpr ⟨j, first, hfirst, hname⟩
      simp [hempty] at hmem
    have hpass : Pass table.entries text.toList text.toList [] := by
      have hcopied := Pass.copied_append text.toList
        (fun _ rest _ _ => hnone (rest ++ [])) (.done : Pass table.entries [] [] [])
      simpa using hcopied
    have hsame : table.rename text = text := (String.toList_inj.mp ((hall _ _).mp hpass).1).symm
    rw [hsame]
    exact ⟨[], hpass, by simp [rewrite, hempty, mark]⟩
  · obtain ⟨result, used', hpass, hreplaced⟩ :=
      exists_pass_of_replaceAll h hempty fired text.toList
    obtain ⟨rfl, rfl⟩ := (hall _ _).mp hpass
    refine ⟨used', hpass, ?_⟩
    simp [rewrite, hempty, hreplaced, String.ofList_toList]

/-! ### Renaming all texts -/

/-- With any leftmost-first search, the texts are renamed as the table says, and the entries that
fire for one of them are marked. -/
theorem rewriteEach_eq (h : LeftmostFirst search) (table : RenamingTable) (fired : List Bool)
    (texts : List String) :
    ∃ fired', rewriteEach search table.entries fired texts =
        some (fired', texts.map table.rename) ∧ fired'.length = fired.length ∧
      ∀ i, fired'[i]? = some true ↔
        fired[i]? = some true ∨ (i < fired.length ∧ FiresIn table.entries texts i) := by
  induction texts generalizing fired with
  | nil => exact ⟨fired, rfl, rfl, by simp [FiresIn]⟩
  | cons text texts ih =>
    obtain ⟨used, hpass, hrewrite⟩ := rewrite_eq h table fired text
    obtain ⟨fired', heach, hlength, hfired⟩ := ih (mark fired used)
    refine ⟨fired', ?_, hlength.trans (length_mark fired used), fun i => ?_⟩
    · simp [rewriteEach, hrewrite, heach]
    · have hused : FiresIn table.entries (text :: texts) i ↔
          i ∈ used ∨ FiresIn table.entries texts i := by
        constructor
        · rintro ⟨other, hother, result, used', hpass', hi⟩
          obtain rfl | hother := List.mem_cons.mp hother
          · exact .inl ((hpass'.unique hpass).2 ▸ hi)
          · exact .inr ⟨other, hother, result, used', hpass', hi⟩
        · rintro (hi | ⟨other, hother, hfires⟩)
          · exact ⟨text, List.mem_cons_self, _, used, hpass, hi⟩
          · exact ⟨other, List.mem_cons_of_mem _ hother, hfires⟩
      rw [hfired, getElem?_mark_eq_true, length_mark, hused]
      tauto

/-- The entries that are marked, in table order. -/
theorem marked_inOrder (entries : List Renaming) (fired : List Bool) :
    InOrder (fun i entry => entries[i]? = some entry ∧ fired[i]? = some true)
      (((entries.zip fired).filter Prod.snd).map Prod.fst) := by
  refine ⟨((entries.zip fired).zipIdx.filter (·.1.2)).map fun a => (a.2, a.1.1), ?_, ?_, ?_⟩
  · have hzip : (entries.zip fired).zipIdx.map Prod.fst = entries.zip fired := by simp
    conv_rhs => rw [← hzip, List.filter_map, List.map_map]
    rw [List.map_map]
    rfl
  · exact List.pairwise_map.mpr ((pairwise_zipIdx (entries.zip fired)).filter _)
  · intro i entry
    simp only [List.mem_map, List.mem_filter, Prod.exists, Prod.mk.injEq,
      List.mem_zipIdx_iff_getElem?, List.getElem?_zip_eq_some]
    constructor
    · rintro ⟨_, _, _, ⟨⟨hindex, hmark⟩, rfl⟩, rfl, rfl⟩
      exact ⟨hindex, hmark⟩
    · rintro ⟨hindex, hmark⟩
      exact ⟨entry, true, i, ⟨⟨hindex, hmark⟩, rfl⟩, rfl, rfl⟩

/-- The entries that renaming some texts marks are imported, the first ones for their new names
only. -/
theorem importsOf_eq (table : RenamingTable) (texts : List String) {fired : List Bool}
    (hfired : ∀ i, fired[i]? = some true ↔
      i < table.entries.length ∧ FiresIn table.entries texts i) :
    importsOf table.entries fired = table.imports texts := by
  have hmarked (i : Nat) (entry : Renaming) :
      table.entries[i]? = some entry ∧ fired[i]? = some true ↔
        table.entries[i]? = some entry ∧ FiresIn table.entries texts i := by
    refine and_congr_right fun hindex => ?_
    have hlt := (List.getElem?_eq_some_iff.mp hindex).1
    simp [hfired, hlt]
  have hlisted := (marked_inOrder table.entries fired).firstBy Renaming.name
  simp only [hmarked] at hlisted
  exact hlisted.unique (table.imports_inOrder_of_pass texts)

/-- Renaming goes through each text once from left to right: where old names stand, the longest of
them is replaced by the new name of the first entry that has it, and the pass goes on behind it, and
every other character is copied. The entries that are imported for some texts are those that are
used in at least one of them, in table order, and of those with the same new name the first. So the
order of entries with different old names does not matter to a text. A rewriter that searches for
the old names as alternatives, the longest first, and marks the entries that it uses never fails
to find an entry, and gives the same texts and the same imports. -/
theorem renaming_is_single_pass {search : Search} (h : LeftmostFirst search)
    (table : RenamingTable) (texts : List String) :
    (∀ text : String, ∃ used, ∀ result indices,
      Pass table.entries text.toList result indices ↔
        result = (table.rename text).toList ∧ indices = used) ∧
    InOrder (fun i entry => (table.entries[i]? = some entry ∧ FiresIn table.entries texts i) ∧
        ∀ j < i, ∀ other, table.entries[j]? = some other ∧ FiresIn table.entries texts j →
          other.name ≠ entry.name)
      (table.imports texts) ∧
    (∀ table' : RenamingTable,
      (∀ name, table'.entries.filter (·.oldName = name) =
        table.entries.filter (·.oldName = name)) ∨
          (table'.entries.Perm table.entries ∧
            (table.entries.map Renaming.oldName).Nodup) →
      ∀ text, table'.rename text = table.rename text) ∧
    (rewriteEach search table.entries (List.replicate table.entries.length false) texts).map
        (fun result => (result.2, importsOf table.entries result.1)) =
      some (texts.map table.rename, table.imports texts) := by
  refine ⟨fun text => ?_, table.imports_inOrder_of_pass texts, fun table' horder text => ?_, ?_⟩
  · obtain ⟨used, hall, -⟩ := table.pass_iff text
    exact ⟨used, hall⟩
  · obtain hfilter | ⟨hperm, hnodup⟩ := horder
    · exact rename_eq_of_filter_eq hfilter text
    · exact rename_eq_of_perm hperm hnodup text
  · obtain ⟨fired, heach, -, hfired⟩ :=
      rewriteEach_eq h table (List.replicate table.entries.length false) texts
    have hmarked (i : Nat) : fired[i]? = some true ↔
        i < table.entries.length ∧ FiresIn table.entries texts i := by
      simp [hfired, List.getElem?_replicate]
    rw [heach, Option.map_some, importsOf_eq table texts hmarked]

/-- Old names that overlap, a name that one of them starts with, a second entry for a name, an empty
name, and a new name that is an old one. -/
theorem renaming_is_single_pass_of_overlapping_names :
    ∃ table : RenamingTable, table.entries =
        [⟨"ab", "ü", "p/U"⟩, ⟨"", "X", "p/X"⟩, ⟨"abc", "b", "p/B"⟩, ⟨"ab", "Y", "p/Y"⟩,
          ⟨"bc", "ab", "p/A"⟩, ⟨"ü", "b", "p/V"⟩] ∧
      LeftmostFirst searchFirst ∧ table.rename "abcab bc" = "bü ab" ∧
      table.rename "abü" = "üb" ∧
      (rewriteEach searchFirst table.entries (List.replicate table.entries.length false)
          ["abcab bc", "abü"]).map (fun result => (result.2, importsOf table.entries result.1)) =
        some (["bü ab", "üb"], [⟨"ab", "ü", "p/U"⟩, ⟨"abc", "b", "p/B"⟩, ⟨"bc", "ab", "p/A"⟩]) := by
  let table : RenamingTable := ⟨[⟨"ab", "ü", "p/U"⟩, ⟨"", "X", "p/X"⟩, ⟨"abc", "b", "p/B"⟩,
    ⟨"ab", "Y", "p/Y"⟩, ⟨"bc", "ab", "p/A"⟩, ⟨"ü", "b", "p/V"⟩]⟩
  obtain ⟨-, -, -, hrewrite⟩ :=
    renaming_is_single_pass searchFirst_leftmostFirst table ["abcab bc", "abü"]
  have hfirst : table.rename "abcab bc" = "bü ab" := by decide +kernel
  have hsecond : table.rename "abü" = "üb" := by decide +kernel
  have himports : table.imports ["abcab bc", "abü"] =
      [⟨"ab", "ü", "p/U"⟩, ⟨"abc", "b", "p/B"⟩, ⟨"bc", "ab", "p/A"⟩] := by decide +kernel
  rw [List.map_cons, List.map_cons, List.map_nil, hfirst, hsecond, himports] at hrewrite
  exact ⟨table, rfl, searchFirst_leftmostFirst, hfirst, hsecond, hrewrite⟩

end RenamingTable

end Reclass
