import Reclass.Proofs.Renaming.SinglePass
import Reclass.Script.Lexeme

/-!
# Old names inside longer names

An old name is renamed wherever its characters stand, also where they are only a part of a longer
name of the script. Only a longer old name of the table keeps it from that, or one that is renamed
before it and reaches into it. So parts of names are left alone exactly where there are none.
-/

namespace Reclass

/-- The text of a piece before renaming. -/
def RenamingPiece.source : RenamingPiece → List Char
  | .kept c => [c]
  | .used entry => entry.oldName.toList

namespace RenamingTable

variable {table : RenamingTable}

/-! ### The pieces around a place -/

/-- Behind some of the pieces of a text come the pieces of what they leave of it. -/
theorem pieces_behind {s : List Char} {front back : List RenamingPiece}
    (h : pieces table.usable 0 s = front ++ back) :
    ∃ rest, s = front.flatMap RenamingPiece.source ++ rest ∧
      back = pieces table.usable 0 rest := by
  induction front generalizing s with
  | nil => exact ⟨s, rfl, h.symm⟩
  | cons piece front ih =>
    obtain ⟨-, hpieces⟩ | ⟨c, rest, rfl, -, hpieces⟩ | ⟨i, entry, rest, hs, -, hpieces⟩ :=
      table.pieces_cases s
    · rw [hpieces] at h
      cases h
    · rw [hpieces] at h
      obtain ⟨rfl, hrest⟩ := List.cons.inj h
      obtain ⟨rest', rfl, hback⟩ := ih hrest
      exact ⟨rest', rfl, hback⟩
    · rw [hpieces] at h
      obtain ⟨rfl, hrest⟩ := List.cons.inj h
      obtain ⟨rest', rfl, hback⟩ := ih hrest
      exact ⟨rest', by rw [hs, List.flatMap_cons, List.append_assoc]; rfl, hback⟩

/-- Pieces that end at a place are those of the text before it, whatever comes behind. -/
theorem pieces_before {before rest : List Char} {front back : List RenamingPiece}
    (h : pieces table.usable 0 (before ++ rest) = front ++ back)
    (hbefore : front.flatMap RenamingPiece.source = before) :
    pieces table.usable 0 before = front := by
  induction front generalizing before with
  | nil =>
    obtain rfl : before = [] := hbefore.symm
    rfl
  | cons piece front ih =>
    rw [List.flatMap_cons] at hbefore
    -- What stands in the text before the place stands in the whole text.
    have hinitial : before <+: before ++ rest := List.prefix_append _ _
    obtain ⟨-, hpieces⟩ | ⟨c, s, hs, hnone, hpieces⟩ | ⟨i, entry, s, hs, hrenames, hpieces⟩ :=
      table.pieces_cases (before ++ rest)
    · rw [hpieces] at h
      cases h
    · rw [hpieces] at h
      obtain ⟨rfl, hfront⟩ := List.cons.inj h
      subst hbefore
      obtain rfl := (List.cons.inj hs).2
      have hkept := pieces_of_notStarts (s := front.flatMap RenamingPiece.source) (c := c)
        fun entry hentry hne hstarts => hnone entry hentry hne (hstarts.trans hinitial)
      exact hkept.trans (congrArg _ (ih hfront rfl))
    · rw [hpieces] at h
      obtain ⟨rfl, hfront⟩ := List.cons.inj h
      subst hbefore
      rw [List.append_assoc] at hs
      obtain rfl := List.append_cancel_left hs
      have hused := pieces_of_renamesAt (s := front.flatMap RenamingPiece.source)
        ⟨hrenames.inUse, List.prefix_append _ _, fun other hother hstarts =>
          hrenames.longest other hother (hstarts.trans hinitial)⟩
      exact hused.trans (congrArg _ (ih hfront rfl))

/-- The first piece of a text ends in front of a place or there, or it is an old name that reaches
over it. -/
theorem pieces_first (table : RenamingTable) {before : List Char} (rest : List Char)
    (hne : before ≠ []) :
    (∃ piece before', before = piece.source ++ before' ∧ before'.length < before.length ∧
        pieces table.usable 0 (before ++ rest) =
          piece :: pieces table.usable 0 (before' ++ rest)) ∨
      ∃ entry back, pieces table.usable 0 (before ++ rest) = .used entry :: back ∧
        before.length < entry.oldName.toList.length := by
  obtain ⟨hnil, -⟩ | ⟨c, s, hs, -, hpieces⟩ | ⟨i, entry, s, hs, hrenames, hpieces⟩ :=
    table.pieces_cases (before ++ rest)
  · exact absurd (List.append_eq_nil_iff.mp hnil).1 hne
  · obtain ⟨d, before', rfl⟩ := List.exists_cons_of_ne_nil hne
    obtain ⟨rfl, rfl⟩ := List.cons.inj hs
    exact .inl ⟨.kept d, before', rfl, Nat.lt_succ_self _, hpieces⟩
  · by_cases hlt : before.length < entry.oldName.toList.length
    · exact .inr ⟨entry, _, hpieces, hlt⟩
    · have hinitial : entry.oldName.toList <+: before :=
        List.prefix_of_prefix_length_le hrenames.starts (List.prefix_append _ _) (by omega)
      obtain ⟨before', rfl⟩ := hinitial
      have hpos := List.length_pos_iff.mpr hrenames.inUse.toList_ne_nil
      rw [List.append_assoc] at hs
      obtain rfl := List.append_cancel_left hs
      exact .inl ⟨.used entry, before', rfl, by rw [List.length_append]; omega, hpieces⟩

/-- A place in a text is between two pieces, or an old name that is renamed reaches over it. -/
theorem pieces_at (table : RenamingTable) (before rest : List Char) :
    (∃ front, pieces table.usable 0 (before ++ rest) = front ++ pieces table.usable 0 rest ∧
        front.flatMap RenamingPiece.source = before) ∨
      ∃ front entry back, pieces table.usable 0 (before ++ rest) = front ++ .used entry :: back ∧
        (front.flatMap RenamingPiece.source).length < before.length ∧
        before.length <
          (front.flatMap RenamingPiece.source).length + entry.oldName.toList.length := by
  induction hsize : before.length using Nat.strongRecOn generalizing before with
  | ind size ih =>
    by_cases hbefore : before = []
    · exact .inl ⟨[], by rw [hbefore]; rfl, hbefore.symm⟩
    obtain ⟨piece, before', rfl, hlt, hpieces⟩ | ⟨entry, back, hpieces, hlt⟩ :=
      table.pieces_first rest hbefore
    · have hlength := hsize
      rw [List.length_append] at hlength
      obtain ⟨front, hfront, hbefore'⟩ | ⟨front, entry, back, hfront, hstart, hend⟩ :=
        ih before'.length (hsize ▸ hlt) before' rfl
      · refine .inl ⟨piece :: front, by rw [hpieces, hfront]; rfl, ?_⟩
        rw [List.flatMap_cons, hbefore']
      · refine .inr ⟨piece :: front, entry, back, by rw [hpieces, hfront]; rfl, ?_⟩
        rw [List.flatMap_cons, List.length_append]
        omega
    · have hpos := List.length_pos_iff.mpr hbefore
      exact .inr ⟨[], entry, back, hpieces, hsize ▸ hpos, by simpa [hsize] using hlt⟩

/-! ### Occurrences of old names -/

/-- That an old name of a table stands between two parts of a text, and no longer one covers it. -/
structure Uncovered (table : RenamingTable) (before name after : String) : Prop where
  nonempty : name ≠ ""
  old : ∃ entry ∈ table.entries, entry.oldName = name
  uncovered : ∀ before' after', ∀ entry ∈ table.entries,
    before' ++ entry.oldName ++ after' = before ++ name ++ after →
    before'.length ≤ before.length → after'.length ≤ after.length →
    entry.oldName.length ≤ name.length

/-- That an old name is only a part of a longer name: it has a character of a name directly before
it or behind it, and no longer old name covers it. -/
structure PartOfName (table : RenamingTable) (before name after : String) : Prop
    extends Uncovered table before name after where
  neighbour : before.toList.getLast?.any Script.continuesName = true ∨
    after.toList.head?.any Script.continuesName = true

/-- That renaming keeps the characters of a name between two parts of a text, as no part of an old
name that is renamed. -/
def LeftAlone (table : RenamingTable) (before name after : String) : Prop :=
  ∃ front back, pieces table.usable 0 (before ++ name ++ after).toList =
      front ++ (name.toList.map .kept ++ back) ∧
    front.flatMap RenamingPiece.source = before.toList

/-- That an entry renames its old name between two parts of a text, which are renamed for
themselves, and that its new name is imported for it. -/
structure RenamesBetween (table : RenamingTable) (before : String) (entry : Renaming)
    (after : String) : Prop where
  inUse : ∃ i, InUse table.entries i entry
  rename : table.rename (before ++ entry.oldName ++ after) =
    table.rename before ++ entry.name ++ table.rename after
  uses : table.uses entry (before ++ entry.oldName ++ after) = true
  imports : ∃ imported ∈ table.imports [before ++ entry.oldName ++ after],
    imported.name = entry.name

variable {before name after : String} {entry : Renaming} {front back : List RenamingPiece}

/-- What is renamed at a place is renamed between the text before it and the text behind it. -/
theorem renamesBetween_of_pieces
    (h : pieces table.usable 0 (before ++ entry.oldName ++ after).toList =
      front ++ .used entry :: back)
    (hfront : front.flatMap RenamingPiece.source = before.toList) :
    table.RenamesBetween before entry after := by
  have hbefore : pieces table.usable 0 before.toList = front := by
    rw [String.append_assoc, String.toList_append] at h
    exact pieces_before h hfront
  have hback : back = pieces table.usable 0 after.toList := by
    have hsplit : pieces table.usable 0 (before ++ entry.oldName ++ after).toList =
        (front ++ [.used entry]) ++ back := by
      rw [h, List.append_assoc]
      rfl
    obtain ⟨rest, hrest, hback⟩ := pieces_behind hsplit
    rw [List.flatMap_append, hfront, List.flatMap_singleton, String.toList_append,
      String.toList_append] at hrest
    rw [hback, List.append_cancel_left hrest]
  have huses : table.uses entry (before ++ entry.oldName ++ after) = true := by
    rw [uses, h]
    simp
  obtain ⟨used, -, hused⟩ := table.exists_pass (before ++ entry.oldName ++ after).toList
  obtain ⟨i, -, hi⟩ := (hused entry).mp (by rw [h]; simp)
  have husable : entry ∈ table.usable := table.usable_inOrder.mem_iff.mpr ⟨i, hi⟩
  refine ⟨⟨i, hi⟩, ?_, huses, exists_mem_firstBy Renaming.name [] ?_ List.not_mem_nil⟩
  · rw [rename, rename, rename, h, hbefore, ← hback, List.flatMap_append, List.flatMap_cons,
      RenamingPiece.text, String.ofList_append, String.ofList_append, String.ofList_toList,
      String.append_assoc]
  · exact List.mem_filter.mpr ⟨husable, by simp [huses]⟩

/-- An old name that stands in a text is not left alone. -/
theorem Uncovered.not_leftAlone (h : table.Uncovered before name after) :
    ¬table.LeftAlone before name after := by
  rintro ⟨front, back, hpieces, hfront⟩
  obtain ⟨rest, hrest, hkept⟩ := pieces_behind hpieces
  obtain rfl : name.toList ++ after.toList = rest := by
    rw [hfront, String.append_assoc, String.toList_append, String.toList_append] at hrest
    exact List.append_cancel_left hrest
  obtain ⟨c, s, hname⟩ : ∃ c s, name.toList = c :: s :=
    List.exists_cons_of_ne_nil fun hnil => h.nonempty (String.toList_eq_nil_iff.mp hnil)
  obtain ⟨entry, hentry, hold⟩ := h.old
  obtain ⟨hnil, -⟩ | ⟨-, -, -, hnone, -⟩ | ⟨_, _, _, -, -, hused⟩ :=
    table.pieces_cases (name.toList ++ after.toList)
  · rw [hname] at hnil
    cases hnil
  · exact hnone entry hentry (hold ▸ h.nonempty) (hold ▸ List.prefix_append _ _)
  · rw [hused, hname] at hkept
    cases hkept

/-- An old name that no longer one covers is renamed when a piece starts where it stands. -/
theorem Uncovered.renamed_of_start (h : table.Uncovered before name after)
    (hpieces : pieces table.usable 0 (before ++ name ++ after).toList =
      front ++ pieces table.usable 0 (name.toList ++ after.toList))
    (hfront : front.flatMap RenamingPiece.source = before.toList) :
    ∃ entry, entry.oldName = name ∧ table.RenamesBetween before entry after := by
  obtain ⟨old, hold, hname⟩ := h.old
  obtain ⟨hnil, -⟩ | ⟨-, -, -, hnone, -⟩ | ⟨i, entry, rest, hrest, hrenames, hused⟩ :=
    table.pieces_cases (name.toList ++ after.toList)
  · exact absurd (String.toList_eq_nil_iff.mp (List.append_eq_nil_iff.mp hnil).1) h.nonempty
  · exact absurd (hname ▸ List.prefix_append _ _) (hnone old hold (hname ▸ h.nonempty))
  have hlength := congrArg List.length hrest
  simp only [List.length_append, String.length_toList] at hlength
  -- The longest old name that stands there is at least as long, and it covers this one.
  have hge : name.length ≤ entry.oldName.length :=
    hname ▸ hrenames.longest old hold (hname ▸ List.prefix_append _ _)
  have hsplit : before ++ entry.oldName ++ String.ofList rest = before ++ name ++ after := by
    refine String.toList_inj.mp ?_
    simp only [String.append_assoc, String.toList_append, String.toList_ofList, hrest]
  have hle : entry.oldName.length ≤ name.length :=
    h.uncovered before _ entry (List.mem_of_getElem? hrenames.inUse.index) hsplit (Nat.le_refl _)
      (by rw [String.length_ofList]; omega)
  have hsame : name.toList = entry.oldName.toList :=
    (List.append_inj hrest (by simp only [String.length_toList]; omega)).1
  obtain rfl := String.toList_inj.mp hsame
  exact ⟨entry, rfl, renamesBetween_of_pieces (hpieces.trans (by rw [hused])) hfront⟩

/-- An old name that is renamed and reaches over the start of another one ends inside of it, when
no longer old name covers the other one. -/
theorem Uncovered.renamed_before (h : table.Uncovered before name after)
    (hpieces : pieces table.usable 0 (before ++ name ++ after).toList =
      front ++ .used entry :: back)
    (hstart : (front.flatMap RenamingPiece.source).length < before.length)
    (hend : before.length <
      (front.flatMap RenamingPiece.source).length + entry.oldName.length) :
    ∃ earlier later, earlier ++ entry.oldName ++ later = before ++ name ++ after ∧
      earlier.length < before.length ∧ before.length < (earlier ++ entry.oldName).length ∧
      (earlier ++ entry.oldName).length < (before ++ name).length ∧
      table.RenamesBetween earlier entry later := by
  have hbehind : pieces table.usable 0 (before ++ name ++ after).toList =
      (front ++ [.used entry]) ++ back := by
    rw [hpieces, List.append_assoc]
    rfl
  obtain ⟨rest, hrest, -⟩ := pieces_behind hbehind
  rw [List.flatMap_append, List.flatMap_singleton] at hrest
  obtain ⟨earlier, hearlier⟩ : ∃ earlier : String,
      earlier.toList = front.flatMap RenamingPiece.source := ⟨_, String.toList_ofList⟩
  obtain ⟨later, rfl⟩ : ∃ later : String, later.toList = rest := ⟨_, String.toList_ofList⟩
  rw [← hearlier, String.length_toList] at hstart hend
  have hsplit : earlier ++ entry.oldName ++ later = before ++ name ++ after := by
    refine String.toList_inj.mp ?_
    rw [hrest, ← hearlier, String.toList_append, String.toList_append]
    rfl
  have hrenames : table.RenamesBetween earlier entry later :=
    renamesBetween_of_pieces (by rw [hsplit, hpieces]) hearlier.symm
  obtain ⟨i, hi⟩ := hrenames.inUse
  have hlength := congrArg String.length hsplit
  simp only [String.length_append] at hlength
  refine ⟨earlier, later, hsplit, hstart, by rwa [String.length_append], ?_, hrenames⟩
  rw [String.length_append, String.length_append]
  by_contra hge
  have hle := h.uncovered _ _ entry (List.mem_of_getElem? hi.index) hsplit (by omega) (by omega)
  omega

/-- The longest old name of a table, with a letter behind it, is a part of a name. -/
theorem exists_partOfName (h : ∃ entry ∈ table.entries, entry.oldName ≠ "") :
    ∃ name, table.PartOfName "" name "x" := by
  obtain ⟨entry, hentry, hne⟩ := h
  obtain ⟨hnone, -⟩ | ⟨longest, hmem, -, hlongest⟩ := foldl_longer_cases table.entries
  · rw [hnone] at hentry
    cases hentry
  · have hpos : 0 < entry.oldName.length := by
      rw [← String.length_toList]
      exact List.length_pos_iff.mpr fun hnil => hne (String.toList_eq_nil_iff.mp hnil)
    refine ⟨longest.oldName, ⟨fun hempty => ?_, ⟨longest, hmem, rfl⟩, ?_⟩, .inr (by decide)⟩
    · have hle := hlongest entry hentry
      rw [hempty] at hle
      exact absurd hle (Nat.not_le_of_lt hpos)
    · exact fun _ _ other hother _ _ _ => hlongest other hother

/-- An old name that is only a part of a longer name is renamed like any other: where no longer old
name covers it, it is renamed between the text before it and the text behind it and its new name is
imported, or an old name that stands before it and is renamed reaches into it. So such parts are
left alone in exactly the texts without them, and a table leaves them alone in all texts exactly
when it has no old names. -/
theorem parts_of_names_left_alone_iff (table : RenamingTable) :
    (∀ before name after, table.PartOfName before name after →
      (∃ entry, entry.oldName = name ∧ table.RenamesBetween before entry after) ∨
        ∃ earlier entry later, earlier ++ entry.oldName ++ later = before ++ name ++ after ∧
          earlier.length < before.length ∧ before.length < (earlier ++ entry.oldName).length ∧
          (earlier ++ entry.oldName).length < (before ++ name).length ∧
          table.RenamesBetween earlier entry later) ∧
    (∀ text, (∀ before name after, before ++ name ++ after = text →
        table.PartOfName before name after → table.LeftAlone before name after) ↔
      ∀ before name after, before ++ name ++ after = text →
        ¬table.PartOfName before name after) ∧
    ((∀ before name after, table.PartOfName before name after →
        table.LeftAlone before name after) ↔
      ∀ entry ∈ table.entries, entry.oldName = "") := by
  refine ⟨fun before name after h => ?_, fun text => ⟨?_, ?_⟩, ?_, ?_⟩
  · have htext : (before ++ name ++ after).toList =
        before.toList ++ (name.toList ++ after.toList) := by
      rw [String.append_assoc, String.toList_append, String.toList_append]
    obtain ⟨front, hpieces, hfront⟩ | ⟨front, entry, back, hpieces, hstart, hend⟩ :=
      table.pieces_at before.toList (name.toList ++ after.toList)
    · exact .inl (h.renamed_of_start (htext ▸ hpieces) hfront)
    · simp only [String.length_toList] at hstart hend
      obtain ⟨earlier, later, hrenames⟩ := h.renamed_before (htext ▸ hpieces) hstart hend
      exact .inr ⟨earlier, entry, later, hrenames⟩
  · intro hclaim before name after htext hpart
    exact hpart.not_leftAlone (hclaim before name after htext hpart)
  · intro hnone before name after htext hpart
    exact absurd hpart (hnone before name after htext)
  · intro hclaim
    by_contra hnames
    push Not at hnames
    obtain ⟨name, hpart⟩ := exists_partOfName hnames
    exact hpart.not_leftAlone (hclaim "" name "x" hpart)
  · rintro hnames before name after hpart
    obtain ⟨entry, hentry, hold⟩ := hpart.old
    exact absurd (hold.symm.trans (hnames entry hentry)) hpart.nonempty

/-- `NGS.Dialog` is renamed inside of `NGS.DialogBox`, which is another name, and imported. -/
theorem dialog_box_loses_its_beginning :
    let dialog : Renaming := ⟨"NGS.Dialog", "Dialog", "ngs/util/Dialog"⟩
    PartOfName ⟨[dialog]⟩ "" "NGS.Dialog" "Box.open()" ∧
      ¬LeftAlone ⟨[dialog]⟩ "" "NGS.Dialog" "Box.open()" ∧
      rename ⟨[dialog]⟩ "NGS.DialogBox.open()" = "DialogBox.open()" ∧
      imports ⟨[dialog]⟩ ["NGS.DialogBox.open()"] = [dialog] := by
  intro dialog
  have hpart : PartOfName ⟨[dialog]⟩ "" "NGS.Dialog" "Box.open()" :=
    ⟨⟨by decide, ⟨dialog, List.mem_singleton_self _, rfl⟩, fun _ _ entry hentry _ _ _ =>
      List.mem_singleton.mp hentry ▸ Nat.le_refl _⟩, .inr (by decide)⟩
  exact ⟨hpart, hpart.not_leftAlone, by decide +kernel, by decide +kernel⟩

end RenamingTable

end Reclass
