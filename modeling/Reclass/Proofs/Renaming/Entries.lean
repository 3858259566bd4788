import Reclass.Renaming
import Mathlib.Data.List.Nodup

/-!
# The entries of a table of renamings

Of the entries with one old name the first is in use, and an entry without an old name is not. Lists
of entries are described by the indices of their entries: those for which a condition holds, in
table order.
-/

namespace Reclass

namespace RenamingTable

/-- That some entries are those for which a condition on an entry and its index holds, in the order
of their indices. -/
def InOrder (P : Nat → Renaming → Prop) (listed : List Renaming) : Prop :=
  ∃ placed : List (Nat × Renaming), placed.map Prod.snd = listed ∧
    placed.Pairwise (fun a b => a.1 < b.1) ∧ ∀ i entry, (i, entry) ∈ placed ↔ P i entry

/-- That the entry at an index of a table is the one that renames its old name. -/
structure InUse (entries : List Renaming) (i : Nat) (entry : Renaming) : Prop where
  index : entries[i]? = some entry
  nonempty : entry.oldName ≠ ""
  first : ∀ j < i, ∀ other, entries[j]? = some other → other.oldName ≠ entry.oldName

/-- The indices of a list increase. -/
theorem pairwise_zipIdx {α : Type} (l : List α) : l.zipIdx.Pairwise fun a b => a.2 < b.2 := by
  have hrange : (l.zipIdx.map Prod.snd).Pairwise (· < ·) := by
    rw [List.zipIdx_map_snd]
    exact List.pairwise_lt_range'
  exact List.pairwise_map.mp hrange

namespace InOrder

variable {P Q : Nat → Renaming → Prop} {listed : List Renaming}

/-- Entries in order for a condition are in order for one that says the same. -/
theorem congr (h : InOrder P listed) (hiff : ∀ i entry, P i entry ↔ Q i entry) :
    InOrder Q listed := by
  obtain ⟨placed, hlisted, hsorted, hmem⟩ := h
  exact ⟨placed, hlisted, hsorted, fun i entry => (hmem i entry).trans (hiff i entry)⟩

/-- An entry is listed when the condition holds for it at some index. -/
theorem mem_iff (h : InOrder P listed) {entry : Renaming} : entry ∈ listed ↔ ∃ i, P i entry := by
  obtain ⟨placed, rfl, _, hmem⟩ := h
  simp [hmem]

/-- All entries, in their own order. -/
theorem all (entries : List Renaming) :
    InOrder (fun i entry => entries[i]? = some entry) entries := by
  refine ⟨entries.zipIdx.map Prod.swap, ?_, ?_, ?_⟩
  · simp [Function.comp_def]
  · exact List.pairwise_map.mpr (pairwise_zipIdx entries)
  · intro i entry
    simp [List.mem_zipIdx_iff_getElem?]

/-- A condition lists the same entries in the same order. -/
theorem unique {listed' : List Renaming} (h : InOrder P listed) (h' : InOrder P listed') :
    listed = listed' := by
  obtain ⟨placed, rfl, hsorted, hmem⟩ := h
  obtain ⟨placed', rfl, hsorted', hmem'⟩ := h'
  have hnodup {placed : List (Nat × Renaming)} (hsorted : placed.Pairwise fun a b => a.1 < b.1) :
      placed.Nodup := hsorted.imp fun {a b} hlt (heq : a = b) => Nat.lt_irrefl b.1 (heq ▸ hlt)
  have hperm : placed.Perm placed' :=
    (List.perm_ext_iff_of_nodup (hnodup hsorted) (hnodup hsorted')).mpr fun a => by
      rw [hmem, hmem']
  have hasymm : ∀ a b : Nat × Renaming, a.1 < b.1 → b.1 < a.1 → a = b :=
    fun _ _ hlt hgt => absurd hgt (Nat.lt_asymm hlt)
  rw [hperm.eq_of_pairwise (fun a b _ _ => hasymm a b) hsorted hsorted']

/-- The entries with a property keep their order. -/
theorem filter (h : InOrder P listed) (p : Renaming → Bool) :
    InOrder (fun i entry => P i entry ∧ p entry = true) (listed.filter p) := by
  obtain ⟨placed, rfl, hsorted, hmem⟩ := h
  refine ⟨placed.filter (p ·.2), ?_, hsorted.filter _, ?_⟩
  · rw [List.filter_map]
    rfl
  · intro i entry
    rw [List.mem_filter, hmem]

/-- Of entries with increasing indices, those that are the first ones for their keys are those whose
key has not been seen and belongs to no entry before them. -/
private theorem exists_firstBy (key : Renaming → String) (seen : List String)
    {placed : List (Nat × Renaming)} (hsorted : placed.Pairwise fun a b => a.1 < b.1) :
    ∃ kept : List (Nat × Renaming), kept.Sublist placed ∧
      kept.map Prod.snd = RenamingTable.firstBy key seen (placed.map Prod.snd) ∧
      ∀ a, a ∈ kept ↔ a ∈ placed ∧ key a.2 ∉ seen ∧
        ∀ b ∈ placed, b.1 < a.1 → key b.2 ≠ key a.2 := by
  induction placed generalizing seen with
  | nil => exact ⟨[], .slnil, rfl, by simp⟩
  | cons first rest ih =>
    obtain ⟨hfirst, hrest⟩ := List.pairwise_cons.mp hsorted
    by_cases hseen : key first.2 ∈ seen
    · obtain ⟨kept, hsublist, hkept, hmem⟩ := ih seen hrest
      refine ⟨kept, hsublist.cons _, ?_, fun a => ?_⟩
      · rw [List.map_cons, RenamingTable.firstBy, if_pos hseen, hkept]
      · rw [hmem, List.mem_cons, List.forall_mem_cons]
        constructor
        · rintro ⟨ha, hnew, hbefore⟩
          exact ⟨.inr ha, hnew, fun _ hkey => hnew (hkey ▸ hseen), hbefore⟩
        · rintro ⟨rfl | ha, hnew, _, hbefore⟩
          · exact absurd hseen hnew
          · exact ⟨ha, hnew, hbefore⟩
    · obtain ⟨kept, hsublist, hkept, hmem⟩ := ih (key first.2 :: seen) hrest
      refine ⟨first :: kept, hsublist.cons_cons _, ?_, fun a => ?_⟩
      · rw [List.map_cons, List.map_cons, RenamingTable.firstBy, if_neg hseen, hkept]
      · rw [List.mem_cons, hmem, List.mem_cons, List.forall_mem_cons, List.mem_cons, not_or]
        constructor
        · rintro (rfl | ⟨ha, ⟨hne, hnew⟩, hbefore⟩)
          · exact ⟨.inl rfl, hseen, fun hlt => absurd hlt (Nat.lt_irrefl _), fun b hb hlt =>
              absurd hlt (Nat.lt_asymm (hfirst b hb))⟩
          · exact ⟨.inr ha, hnew, fun _ hkey => hne hkey.symm, hbefore⟩
        · rintro ⟨rfl | ha, hnew, hne, hbefore⟩
          · exact .inl rfl
          · exact .inr ⟨ha, ⟨fun hkey => hne (hfirst a ha) hkey.symm, hnew⟩, hbefore⟩

/-- The first entries for their keys are those whose key no entry before them has. -/
theorem firstBy (h : InOrder P listed) (key : Renaming → String) :
    InOrder (fun i entry => P i entry ∧ ∀ j < i, ∀ other, P j other → key other ≠ key entry)
      (firstBy key [] listed) := by
  obtain ⟨placed, rfl, hsorted, hmem⟩ := h
  obtain ⟨kept, hsublist, hkept, hkeptMem⟩ := exists_firstBy key [] hsorted
  refine ⟨kept, hkept, hsorted.sublist hsublist, fun i entry => ?_⟩
  rw [hkeptMem, hmem]
  simp only [List.not_mem_nil, not_false_eq_true, true_and, Prod.forall, hmem]
  refine and_congr_right fun _ => ⟨fun h j hj other hother => h j other hother hj, ?_⟩
  exact fun h j other hother hj => h j hj other hother

end InOrder

/-- Of the entries with one key the first stays. -/
theorem exists_mem_firstBy (key : Renaming → String) (seen : List String) {entries : List Renaming}
    {entry : Renaming} (hmem : entry ∈ entries) (hnew : key entry ∉ seen) :
    ∃ first ∈ firstBy key seen entries, key first = key entry := by
  induction entries generalizing seen with
  | nil => exact absurd hmem List.not_mem_nil
  | cons head rest ih =>
    by_cases hkey : key head = key entry
    · refine ⟨head, ?_, hkey⟩
      rw [firstBy, if_neg (hkey ▸ hnew)]
      exact List.mem_cons_self
    · have hmem : entry ∈ rest :=
        (List.mem_cons.mp hmem).resolve_left fun heq => hkey (heq ▸ rfl)
      rw [firstBy]
      split
      · exact ih seen hmem hnew
      · obtain ⟨first, hfirst, hsame⟩ := ih (key head :: seen) hmem
          (List.not_mem_cons_of_ne_of_not_mem (fun heq => hkey heq.symm) hnew)
        exact ⟨first, List.mem_cons_of_mem _ hfirst, hsame⟩

namespace InUse

variable {entries : List Renaming} {i j : Nat} {entry other : Renaming}

/-- The old name of an entry in use has a first character. -/
theorem toList_ne_nil (h : InUse entries i entry) : entry.oldName.toList ≠ [] := fun hnil =>
  h.nonempty (String.toList_eq_nil_iff.mp hnil)

/-- One entry is in use for an old name. -/
theorem unique (h : InUse entries i entry) (h' : InUse entries j other)
    (hname : entry.oldName = other.oldName) : i = j ∧ entry = other := by
  rcases Nat.lt_trichotomy i j with hlt | rfl | hgt
  · exact absurd hname (h'.first i hlt entry h.index)
  · exact ⟨rfl, Option.some.inj (h.index.symm.trans h'.index)⟩
  · exact absurd hname.symm (h.first j hgt other h'.index)

/-- Behind others, an entry is in use when none of them has its old name. -/
theorem concat_iff {last : Renaming} :
    InUse (entries ++ [last]) i entry ↔ InUse entries i entry ∨
      (i = entries.length ∧ entry = last ∧ last.oldName ≠ "" ∧
        ∀ other ∈ entries, other.oldName ≠ last.oldName) := by
  constructor
  · rintro ⟨hindex, hne, hfirst⟩
    obtain ⟨hlt, hat⟩ := List.getElem?_eq_some_iff.mp hindex
    have hbefore {j : Nat} (hj : j < entries.length) : (entries ++ [last])[j]? = entries[j]? :=
      List.getElem?_append_left hj
    by_cases hi : i < entries.length
    · refine .inl ⟨hbefore hi ▸ hindex, hne, fun j hj other hother => hfirst j hj other ?_⟩
      rw [hbefore (by omega), hother]
    · obtain rfl : i = entries.length := by simp at hlt; omega
      obtain rfl : last = entry := by simpa using hindex
      refine .inr ⟨rfl, rfl, hne, fun other hother => ?_⟩
      obtain ⟨j, hj⟩ := List.mem_iff_getElem?.mp hother
      have hlt := (List.getElem?_eq_some_iff.mp hj).1
      exact hfirst j hlt other (by rw [hbefore hlt, hj])
  · have hbefore {j : Nat} {other : Renaming} (hj : j < entries.length)
        (hother : (entries ++ [last])[j]? = some other) : entries[j]? = some other := by
      rwa [List.getElem?_append_left hj] at hother
    rintro (⟨hindex, hne, hfirst⟩ | ⟨rfl, rfl, hne, hnone⟩)
    · have hlt := (List.getElem?_eq_some_iff.mp hindex).1
      refine ⟨by rw [List.getElem?_append_left hlt, hindex], hne, fun j hj other hother => ?_⟩
      exact hfirst j hj other (hbefore (by omega) hother)
    · refine ⟨by simp, hne, fun j hj other hother => ?_⟩
      exact hnone other (List.mem_of_getElem? (hbefore hj hother))

/-- For every old name that an entry has, one is in use. -/
theorem exists_of_mem (hmem : entry ∈ entries) (hne : entry.oldName ≠ "") :
    ∃ i first, InUse entries i first ∧ first.oldName = entry.oldName := by
  obtain ⟨k, hk⟩ := List.mem_iff_getElem?.mp hmem
  induction k using Nat.strongRecOn generalizing entry with
  | ind k ih =>
    by_cases hearlier : ∃ j < k, ∃ other, entries[j]? = some other ∧ other.oldName = entry.oldName
    · obtain ⟨j, hlt, other, hother, hname⟩ := hearlier
      obtain ⟨i, first, hfirst, hname'⟩ :=
        ih j hlt (List.mem_of_getElem? hother) (hname ▸ hne) hother
      exact ⟨i, first, hfirst, hname'.trans hname⟩
    · refine ⟨k, entry, ⟨hk, hne, fun j hlt other hother hname => hearlier ?_⟩, rfl⟩
      exact ⟨j, hlt, other, hother, hname⟩

/-- The entries in use are those that come first among the ones with their old name. -/
theorem exists_iff_head? :
    (∃ i, InUse entries i entry) ↔ entry.oldName ≠ "" ∧
      (entries.filter (·.oldName = entry.oldName)).head? = some entry := by
  rw [List.head?_filter, List.find?_eq_some_iff_getElem]
  constructor
  · rintro ⟨i, hi⟩
    obtain ⟨hlt, hat⟩ := List.getElem?_eq_some_iff.mp hi.index
    refine ⟨hi.nonempty, by simp, i, hlt, hat, fun j hj => ?_⟩
    simpa using hi.first j hj _ (List.getElem?_eq_getElem (by omega))
  · rintro ⟨hne, -, i, hlt, hat, hbefore⟩
    refine ⟨i, List.getElem?_eq_some_iff.mpr ⟨hlt, hat⟩, hne, fun j hj other hother => ?_⟩
    obtain ⟨_, rfl⟩ := List.getElem?_eq_some_iff.mp hother
    simpa using hbefore j hj

/-- Where no two entries have the same old name, those that have one are in use. -/
theorem exists_iff_of_nodup (h : (entries.map Renaming.oldName).Nodup) :
    (∃ i, InUse entries i entry) ↔ entry ∈ entries ∧ entry.oldName ≠ "" := by
  constructor
  · rintro ⟨i, hi⟩
    exact ⟨List.mem_of_getElem? hi.index, hi.nonempty⟩
  · rintro ⟨hmem, hne⟩
    obtain ⟨i, first, hfirst, hname⟩ := exists_of_mem hmem hne
    have heq := List.inj_on_of_nodup_map h (List.mem_of_getElem? hfirst.index) hmem hname
    exact ⟨i, heq ▸ hfirst⟩

end InUse

/-- The entries in use are those that the table uses. -/
theorem usable_inOrder (table : RenamingTable) :
    InOrder (InUse table.entries) table.usable := by
  have hnonempty := (InOrder.all table.entries).filter fun entry => !entry.oldName.isEmpty
  refine (hnonempty.firstBy Renaming.oldName).congr fun i entry => ?_
  simp only [Bool.not_eq_true', String.isEmpty_eq_false_iff]
  constructor
  · rintro ⟨⟨hindex, hne⟩, hfirst⟩
    refine ⟨hindex, hne, fun j hj other hother hname => ?_⟩
    exact hfirst j hj other ⟨hother, hname ▸ hne⟩ hname
  · rintro ⟨hindex, hne, hfirst⟩
    exact ⟨⟨hindex, hne⟩, fun j hj other hother => hfirst j hj other hother.1⟩

end RenamingTable

end Reclass
