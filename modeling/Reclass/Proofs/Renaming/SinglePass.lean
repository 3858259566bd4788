import Reclass.Proofs.Renaming.Entries
import Mathlib.Data.List.Induction

/-!
# Renaming in one pass

Renaming goes through a text once from left to right. Where old names stand, the longest of them is
renamed, and the pass goes on behind it; elsewhere a character is copied. This is stated here over
the entries of the table as they are written, as a relation of a text, the text it becomes, and the
indices of the entries that are used.
-/

namespace Reclass

namespace RenamingTable

/-- That the entry at an index renames what a text starts with: it is in use, its old name stands
there, and no longer one does. -/
structure RenamesAt (entries : List Renaming) (s : List Char) (i : Nat) (entry : Renaming) :
    Prop where
  inUse : InUse entries i entry
  starts : entry.oldName.toList <+: s
  longest : ∀ other ∈ entries, other.oldName.toList <+: s →
    other.oldName.length ≤ entry.oldName.length

/-- One pass over a text: what it becomes, and the indices of the entries that are used, in the
order of their uses. -/
inductive Pass (entries : List Renaming) : List Char → List Char → List Nat → Prop
  | done : Pass entries [] [] []
  /-- An old name is renamed, and the pass goes on behind it. -/
  | renamed {i : Nat} {entry : Renaming} {rest result : List Char} {used : List Nat}
      (hrenames : RenamesAt entries (entry.oldName.toList ++ rest) i entry)
      (hrest : Pass entries rest result used) :
      Pass entries (entry.oldName.toList ++ rest) (entry.name.toList ++ result) (i :: used)
  /-- A character is copied where no old name stands. -/
  | copied {c : Char} {s result : List Char} {used : List Nat}
      (hnone : ∀ entry ∈ entries, entry.oldName ≠ "" → ¬entry.oldName.toList <+: c :: s)
      (hrest : Pass entries s result used) : Pass entries (c :: s) (c :: result) used

variable {entries : List Renaming} {s : List Char}

/-! ### The pass is determined -/

namespace RenamesAt

variable {i j : Nat} {entry other : Renaming}

/-- One entry renames what a text starts with. -/
theorem unique (h : RenamesAt entries s i entry) (h' : RenamesAt entries s j other) :
    i = j ∧ entry = other := by
  have hle := h'.longest entry (List.mem_of_getElem? h.inUse.index) h.starts
  have hge := h.longest other (List.mem_of_getElem? h'.inUse.index) h'.starts
  rw [← String.length_toList, ← String.length_toList] at hle hge
  have hinitial := List.prefix_of_prefix_length_le h.starts h'.starts hle
  exact h.inUse.unique h'.inUse (String.toList_inj.mp (hinitial.eq_of_length_le hge))

/-- Where an entry renames, an old name stands. -/
theorem not_forall (h : RenamesAt entries s i entry) :
    ¬∀ e ∈ entries, e.oldName ≠ "" → ¬e.oldName.toList <+: s := fun hnone =>
  hnone entry (List.mem_of_getElem? h.inUse.index) h.inUse.nonempty h.starts

/-- At the end of a text nothing is renamed. -/
theorem ne_nil (h : RenamesAt entries s i entry) : s ≠ [] := by
  rintro rfl
  exact h.inUse.toList_ne_nil (List.prefix_nil.mp h.starts)

end RenamesAt

/-- A text has one pass. -/
theorem Pass.unique {result result' : List Char} {used used' : List Nat}
    (h : Pass entries s result used) (h' : Pass entries s result' used') :
    result = result' ∧ used = used' := by
  induction h generalizing result' used' with
  | done =>
    generalize hs : ([] : List Char) = s at h'
    cases h' with
    | done => exact ⟨rfl, rfl⟩
    | renamed hrenames => exact absurd hs.symm hrenames.ne_nil
    | copied => exact absurd hs (by simp)
  | @renamed i entry rest _ _ hrenames _ ih =>
    generalize hs : entry.oldName.toList ++ rest = s at h'
    cases h' with
    | done => exact absurd hs hrenames.ne_nil
    | @renamed j other _ _ _ hrenames' hrest' =>
      rw [hs] at hrenames
      obtain ⟨rfl, rfl⟩ := hrenames.unique hrenames'
      cases List.append_cancel_left hs
      obtain ⟨rfl, rfl⟩ := ih hrest'
      exact ⟨rfl, rfl⟩
    | copied hnone =>
      rw [hs] at hrenames
      exact absurd hnone hrenames.not_forall
  | @copied c s _ _ hnone _ ih =>
    generalize hs : c :: s = s' at h'
    cases h' with
    | done => exact absurd hs (by simp)
    | renamed hrenames =>
      rw [← hs] at hrenames
      exact absurd hnone hrenames.not_forall
    | copied _ hrest' =>
      cases hs
      obtain ⟨rfl, rfl⟩ := ih hrest'
      exact ⟨rfl, rfl⟩

/-- Characters are copied up to the first place where an old name stands. -/
theorem Pass.copied_append {result : List Char} {used : List Nat} (before : List Char)
    (hnone : ∀ skipped rest, before = skipped ++ rest → rest ≠ [] →
      ∀ entry ∈ entries, entry.oldName ≠ "" → ¬entry.oldName.toList <+: rest ++ s)
    (h : Pass entries s result used) : Pass entries (before ++ s) (before ++ result) used := by
  induction before with
  | nil => exact h
  | cons c before ih =>
    refine .copied (hnone [] (c :: before) rfl (by simp)) (ih fun skipped rest hsplit => ?_)
    exact hnone (c :: skipped) rest (by rw [hsplit]; rfl)

/-! ### Renaming makes the pass -/

/-- Of some entries, one with the longest old name wins. -/
theorem foldl_longer_cases (found : List Renaming) :
    (found = [] ∧ found.foldl longer none = none) ∨
      ∃ entry ∈ found, found.foldl longer none = some entry ∧
        ∀ other ∈ found, other.oldName.length ≤ entry.oldName.length := by
  induction found using List.reverseRecOn with
  | nil => exact .inl ⟨rfl, rfl⟩
  | append_singleton found last ih =>
    right
    rw [List.foldl_append]
    obtain ⟨rfl, hbest⟩ | ⟨best, hmem, hbest, hlongest⟩ := ih
    · exact ⟨last, by simp, rfl, by simp⟩
    · simp only [hbest, List.foldl_cons, List.foldl_nil, longer]
      by_cases hlt : best.oldName.length < last.oldName.length
      · refine ⟨last, by simp, if_pos hlt, fun other hother => ?_⟩
        obtain hother | rfl := List.mem_append.mp hother |>.imp_right List.mem_singleton.mp
        · have hle := hlongest other hother
          omega
        · exact Nat.le_refl _
      · refine ⟨best, List.mem_append_left _ hmem, if_neg hlt, fun other hother => ?_⟩
        obtain hother | rfl := List.mem_append.mp hother |>.imp_right List.mem_singleton.mp
        · exact hlongest other hother
        · omega

/-- What `longest?` finds is the entry that renames what a text starts with, and it finds nothing
where no old name stands. -/
theorem longest?_cases (table : RenamingTable) (s : List Char) :
    (longest? table.usable s = none ∧
        ∀ entry ∈ table.entries, entry.oldName ≠ "" → ¬entry.oldName.toList <+: s) ∨
      ∃ i entry, longest? table.usable s = some entry ∧ RenamesAt table.entries s i entry := by
  -- An old name that stands there is one of an entry in use.
  have hinUse (entry : Renaming) (hmem : entry ∈ table.entries) (hne : entry.oldName ≠ "")
      (hstarts : entry.oldName.toList <+: s) :
      ∃ first ∈ table.usable.filter fun entry => entry.oldName.toList.isPrefixOf s,
        first.oldName = entry.oldName := by
    obtain ⟨i, first, hfirst, hname⟩ := InUse.exists_of_mem hmem hne
    refine ⟨first, List.mem_filter.mpr ⟨table.usable_inOrder.mem_iff.mpr ⟨i, hfirst⟩, ?_⟩, hname⟩
    simpa [hname] using hstarts
  obtain ⟨hnone, hfold⟩ | ⟨entry, hmem, hfold, hlongest⟩ :=
    foldl_longer_cases (table.usable.filter fun entry => entry.oldName.toList.isPrefixOf s)
  · refine .inl ⟨hfold, fun entry hmem hne hstarts => ?_⟩
    obtain ⟨first, hfirst, -⟩ := hinUse entry hmem hne hstarts
    simp [hnone] at hfirst
  · obtain ⟨husable, hstarts⟩ := List.mem_filter.mp hmem
    obtain ⟨i, hi⟩ := table.usable_inOrder.mem_iff.mp husable
    refine .inr ⟨i, entry, hfold, hi, by simpa using hstarts, fun other hother hstarts' => ?_⟩
    by_cases hne : other.oldName = ""
    · simp [hne]
    · obtain ⟨first, hfirst, hname⟩ := hinUse other hother hne hstarts'
      exact hname ▸ hlongest first hfirst

/-- The characters that belong to an old name are passed over. -/
theorem pieces_covered (entries : List Renaming) (covered rest : List Char) :
    pieces entries covered.length (covered ++ rest) = pieces entries 0 rest := by
  induction covered with
  | nil => rfl
  | cons c covered ih => exact ih

/-- Where no old name stands, the first piece is a character that stays. -/
theorem pieces_of_notStarts {table : RenamingTable} {c : Char}
    (hnone : ∀ entry ∈ table.entries, entry.oldName ≠ "" → ¬entry.oldName.toList <+: c :: s) :
    pieces table.usable 0 (c :: s) = .kept c :: pieces table.usable 0 s := by
  obtain ⟨hfound, -⟩ | ⟨i, entry, -, hrenames⟩ := longest?_cases table (c :: s)
  · simp only [pieces, hfound]
  · exact absurd hnone hrenames.not_forall

/-- Where an entry renames, it is used, and the pieces go on behind its old name. -/
theorem pieces_of_renamesAt {table : RenamingTable} {i : Nat} {entry : Renaming}
    (h : RenamesAt table.entries (entry.oldName.toList ++ s) i entry) :
    pieces table.usable 0 (entry.oldName.toList ++ s) =
      .used entry :: pieces table.usable 0 s := by
  obtain ⟨-, hnone⟩ | ⟨j, other, hfound, hother⟩ := longest?_cases table (entry.oldName.toList ++ s)
  · exact absurd hnone h.not_forall
  · obtain ⟨-, rfl⟩ := hother.unique h
    obtain ⟨c, covered, hname⟩ := List.exists_cons_of_ne_nil h.inUse.toList_ne_nil
    have hlength : other.oldName.length - 1 = covered.length := by
      rw [← String.length_toList, hname, List.length_cons, Nat.add_sub_cancel]
    rw [hname, List.cons_append] at hfound ⊢
    simp only [pieces, hfound, hlength, pieces_covered]

/-- The pieces of a text one after the other: at its end there are none, where no old name stands a
character stays, and elsewhere an entry renames an old name and the pieces go on behind it. -/
theorem pieces_cases (table : RenamingTable) (s : List Char) :
    (s = [] ∧ pieces table.usable 0 s = []) ∨
      (∃ c rest, s = c :: rest ∧
        (∀ entry ∈ table.entries, entry.oldName ≠ "" → ¬entry.oldName.toList <+: s) ∧
        pieces table.usable 0 s = .kept c :: pieces table.usable 0 rest) ∨
      ∃ i entry rest, s = entry.oldName.toList ++ rest ∧ RenamesAt table.entries s i entry ∧
        pieces table.usable 0 s = .used entry :: pieces table.usable 0 rest := by
  obtain ⟨-, hnone⟩ | ⟨i, entry, -, hrenames⟩ := longest?_cases table s
  · cases s with
    | nil => exact .inl ⟨rfl, rfl⟩
    | cons c rest => exact .inr (.inl ⟨c, rest, rfl, hnone, pieces_of_notStarts hnone⟩)
  · obtain ⟨rest, rfl⟩ := hrenames.starts
    exact .inr (.inr ⟨i, entry, rest, rfl, hrenames, pieces_of_renamesAt hrenames⟩)

/-- Renaming a text makes the pass over it, and uses the entries at the indices of this pass. -/
theorem exists_pass (table : RenamingTable) (s : List Char) :
    ∃ used, Pass table.entries s ((pieces table.usable 0 s).flatMap RenamingPiece.text) used ∧
      ∀ entry, .used entry ∈ pieces table.usable 0 s ↔
        ∃ i ∈ used, InUse table.entries i entry := by
  -- An old name is passed over at once, so the induction is on the length of what is left.
  induction hsize : s.length using Nat.strongRecOn generalizing s with
  | ind size ih =>
    obtain ⟨rfl, hpieces⟩ | ⟨c, rest, rfl, hnone, hpieces⟩ |
      ⟨i, entry, rest, hs, hrenames, hpieces⟩ := table.pieces_cases s
    · exact ⟨[], by rw [hpieces]; exact .done, by simp [hpieces]⟩
    · obtain ⟨used, hpass, hused⟩ := ih rest.length (by simp at hsize; omega) rest rfl
      refine ⟨used, ?_, fun entry => ?_⟩
      · rw [hpieces, List.flatMap_cons]
        exact hpass.copied hnone
      · simp [hpieces, hused]
    · have hshorter : rest.length < size := by
        have hpos := List.length_pos_iff.mpr hrenames.inUse.toList_ne_nil
        rw [← hsize, hs, List.length_append]
        omega
      obtain ⟨used, hpass, hused⟩ := ih rest.length hshorter rest rfl
      refine ⟨i :: used, ?_, fun other => ?_⟩
      · rw [hpieces, List.flatMap_cons, hs]
        exact .renamed (hs ▸ hrenames) hpass
      · rw [hpieces, List.mem_cons, hused, RenamingPiece.used.injEq]
        have hat : other = entry ↔ InUse table.entries i other := by
          constructor
          · rintro rfl
            exact hrenames.inUse
          · intro hi
            exact Option.some.inj (hi.index.symm.trans hrenames.inUse.index)
        simp [hat]

/-- Renaming a text is the pass over it, and uses the entries at the indices of this pass. -/
theorem pass_iff (table : RenamingTable) (text : String) :
    ∃ used, (∀ result indices, Pass table.entries text.toList result indices ↔
        result = (table.rename text).toList ∧ indices = used) ∧
      ∀ i entry, InUse table.entries i entry → (table.uses entry text = true ↔ i ∈ used) := by
  obtain ⟨used, hpass, hused⟩ := table.exists_pass text.toList
  refine ⟨used, fun result indices => ⟨fun h => ?_, ?_⟩, fun i entry hi => ?_⟩
  · obtain ⟨rfl, rfl⟩ := h.unique hpass
    exact ⟨by rw [rename, String.toList_ofList], rfl⟩
  · rintro ⟨rfl, rfl⟩
    rwa [rename, String.toList_ofList]
  · rw [uses, List.contains_iff_mem, hused]
    constructor
    · rintro ⟨j, hj, hinUse⟩
      obtain ⟨rfl, -⟩ := hi.unique hinUse rfl
      exact hj
    · exact fun hmem => ⟨i, hmem, hi⟩

/-- That the pass over one of some texts uses the entry at an index. -/
def FiresIn (entries : List Renaming) (texts : List String) (i : Nat) : Prop :=
  ∃ text ∈ texts, ∃ result used, Pass entries text.toList result used ∧ i ∈ used

/-- The entries that a pass uses are in use. -/
theorem Pass.exists_inUse {result : List Char} {used : List Nat} (h : Pass entries s result used)
    {i : Nat} (hi : i ∈ used) : ∃ entry, InUse entries i entry := by
  induction h with
  | done => exact absurd hi List.not_mem_nil
  | renamed hrenames _ ih =>
    obtain rfl | hi := List.mem_cons.mp hi
    · exact ⟨_, hrenames.inUse⟩
    · exact ih hi
  | copied _ _ ih => exact ih hi

/-- An entry fires for some texts when it is the one that renames its old name, and one of the texts
uses it. -/
theorem firesIn_iff (table : RenamingTable) (texts : List String) (i : Nat) (entry : Renaming) :
    table.entries[i]? = some entry ∧ FiresIn table.entries texts i ↔
      InUse table.entries i entry ∧ texts.any (table.uses entry) = true := by
  rw [List.any_eq_true]
  constructor
  · rintro ⟨hindex, text, htext, result, used, hpass, hi⟩
    obtain ⟨other, hinUse⟩ := hpass.exists_inUse hi
    obtain rfl : other = entry := Option.some.inj (hinUse.index.symm.trans hindex)
    obtain ⟨used', hall, huses⟩ := table.pass_iff text
    obtain ⟨-, rfl⟩ := (hall result used).mp hpass
    exact ⟨hinUse, text, htext, (huses i other hinUse).mpr hi⟩
  · rintro ⟨hinUse, text, htext, huse⟩
    obtain ⟨used, hall, huses⟩ := table.pass_iff text
    exact ⟨hinUse.index, text, htext, _, used, (hall _ _).mpr ⟨rfl, rfl⟩,
      (huses i entry hinUse).mp huse⟩

/-- The entries that are imported for some texts are those that a pass over one of them uses and
that are the first of these with their new name, in table order. -/
theorem imports_inOrder_of_pass (table : RenamingTable) (texts : List String) :
    InOrder (fun i entry => (table.entries[i]? = some entry ∧ FiresIn table.entries texts i) ∧
        ∀ j < i, ∀ other, table.entries[j]? = some other ∧ FiresIn table.entries texts j →
          other.name ≠ entry.name)
      (table.imports texts) := by
  have hused := table.usable_inOrder.filter fun entry => texts.any (table.uses entry)
  refine (hused.firstBy Renaming.name).congr fun i entry => ?_
  simp only [firesIn_iff]

/-! ### The order of the entries -/

variable {entries' : List Renaming}

/-- What an entry renames, it renames in a table with the same entries in use too. -/
theorem RenamesAt.of_same {i : Nat} {entry : Renaming}
    (hsame : ∀ entry, (∃ i, InUse entries i entry) ↔ ∃ i, InUse entries' i entry)
    (h : RenamesAt entries s i entry) : ∃ j, RenamesAt entries' s j entry := by
  obtain ⟨j, hj⟩ := (hsame entry).mp ⟨i, h.inUse⟩
  refine ⟨j, hj, h.starts, fun other hother hstarts => ?_⟩
  by_cases hne : other.oldName = ""
  · simp [hne]
  · obtain ⟨k, first, hfirst, hname⟩ := InUse.exists_of_mem hother hne
    obtain ⟨k', hfirst'⟩ := (hsame first).mpr ⟨k, hfirst⟩
    exact hname ▸ h.longest first (List.mem_of_getElem? hfirst'.index) (hname ▸ hstarts)

/-- A text becomes the same by tables with the same entries in use. -/
theorem Pass.of_same {result : List Char} {used : List Nat}
    (hsame : ∀ entry, (∃ i, InUse entries i entry) ↔ ∃ i, InUse entries' i entry)
    (h : Pass entries s result used) : ∃ used', Pass entries' s result used' := by
  induction h with
  | done => exact ⟨[], .done⟩
  | renamed hrenames _ ih =>
    obtain ⟨j, hj⟩ := hrenames.of_same hsame
    obtain ⟨used', hpass⟩ := ih
    exact ⟨j :: used', .renamed hj hpass⟩
  | copied hnone _ ih =>
    obtain ⟨used', hpass⟩ := ih
    refine ⟨used', .copied (fun entry hentry hne => ?_) hpass⟩
    obtain ⟨k, first, hfirst, hname⟩ := InUse.exists_of_mem hentry hne
    obtain ⟨k', hfirst'⟩ := (hsame first).mpr ⟨k, hfirst⟩
    exact hname ▸ hnone first (List.mem_of_getElem? hfirst'.index) (hname ▸ hne)

/-- Tables in which the same entries are in use rename texts alike. -/
theorem rename_eq_of_same {table table' : RenamingTable}
    (hsame : ∀ entry,
      (∃ i, InUse table'.entries i entry) ↔ ∃ i, InUse table.entries i entry)
    (text : String) : table'.rename text = table.rename text := by
  obtain ⟨used, hall, -⟩ := table.pass_iff text
  obtain ⟨used', hall', -⟩ := table'.pass_iff text
  obtain ⟨_, hpass⟩ := ((hall' _ used').mpr ⟨rfl, rfl⟩).of_same hsame
  exact String.toList_inj.mp ((hall _ _).mp hpass).1

/-- Entries may change places when those with the same old name stay in their order. -/
theorem rename_eq_of_filter_eq {table table' : RenamingTable}
    (h : ∀ name, table'.entries.filter (·.oldName = name) =
      table.entries.filter (·.oldName = name)) (text : String) :
    table'.rename text = table.rename text :=
  rename_eq_of_same (fun entry => by rw [InUse.exists_iff_head?, InUse.exists_iff_head?, h]) text

/-- Entries with different old names may stand in any order. -/
theorem rename_eq_of_perm {table table' : RenamingTable} (h : table'.entries.Perm table.entries)
    (hnodup : (table.entries.map Renaming.oldName).Nodup) (text : String) :
    table'.rename text = table.rename text := by
  have hnodup' : (table'.entries.map Renaming.oldName).Nodup := (h.map _).nodup_iff.mpr hnodup
  refine rename_eq_of_same (fun entry => ?_) text
  rw [InUse.exists_iff_of_nodup hnodup, InUse.exists_iff_of_nodup hnodup', h.mem_iff]

end RenamingTable

end Reclass
