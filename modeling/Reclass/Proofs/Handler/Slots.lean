import Reclass.Proofs.Handler.Replacement
import Reclass.Proofs.Segment

/-!
# The table of slots

Members can be kept in a list of places that is never moved, together with a table that finds the
place of a slot: a member that is replaced leaves its place, and the new one takes the first place
that was left. The table and the places agree after every member, and what stands at the places is
what `Member.insert` gives. So no two members of a literal share a slot.
-/

namespace Reclass

open Script

namespace Member

/-- Members at their places, some of which have been left, and for slots the places of their
members. -/
structure SlotTable where
  entries : List (Option Member)
  positions : Std.HashMap String Nat

namespace SlotTable

/-- The table of no members. -/
def empty : SlotTable := ⟨[], ∅⟩

/-- Takes slots out of a table of places, one after the other, and gives the places that were
found. -/
def remove (positions : Std.HashMap String Nat) : List String → List Nat × Std.HashMap String Nat
  | [] => ([], positions)
  | slot :: slots =>
    match positions[slot]? with
    | some place =>
      let (places, left) := remove (positions.erase slot) slots
      (place :: places, left)
    | none => remove positions slots

/-- Leaves the places, one after the other. -/
def clear (entries : List (Option Member)) (places : List Nat) : List (Option Member) :=
  places.foldl (fun entries place => entries.set place none) entries

/-- Adds a member: it takes the first of the places of those that it replaces, which are all left,
and a new place when there is none. -/
def insert (new : Member) (table : SlotTable) : SlotTable :=
  let (places, positions) := remove table.positions new.replaces
  match places.min? with
  | some first =>
    ⟨(clear table.entries places).set first (some new), positions.insert new.slot first⟩
  | none =>
    ⟨table.entries ++ [some new], positions.insert new.slot table.entries.length⟩

/-- The table after some members. -/
def ofMembers (written : List Member) : SlotTable :=
  written.foldl (fun table new => table.insert new) empty

/-- The members that have a place, in the order of their places. -/
def live (table : SlotTable) : List Member := table.entries.filterMap id

/-- That a table finds for each slot the place at which a member with this slot stands, and nothing
else. -/
def Consistent (table : SlotTable) : Prop :=
  ∀ (slot : String) (place : Nat), table.positions[slot]? = some place ↔
    ∃ m, table.entries[place]? = some (some m) ∧ m.slot = slot

/-! ### One step -/

/-- Slots that have been taken out are not found any more, all others are found where they were. -/
theorem getElem?_remove (positions : Std.HashMap String Nat) (slots : List String)
    (slot : String) :
    (remove positions slots).2[slot]? = if slot ∈ slots then none else positions[slot]? := by
  induction slots generalizing positions with
  | nil => rfl
  | cons first slots ih =>
    rw [remove]
    cases hfirst : positions[first]? with
    | none =>
      rw [ih]
      by_cases heq : slot = first
      · simp [heq, hfirst]
      · simp [heq]
    | some place =>
      rw [ih, Std.HashMap.getElem?_erase]
      by_cases heq : slot = first
      · simp [heq]
      · simp [heq, Ne.symm heq]

/-- The places that are found are those of the slots that are taken out. -/
theorem mem_remove_iff (positions : Std.HashMap String Nat) (slots : List String) (place : Nat) :
    place ∈ (remove positions slots).1 ↔ ∃ slot ∈ slots, positions[slot]? = some place := by
  induction slots generalizing positions with
  | nil => simp [remove]
  | cons first slots ih =>
    rw [remove]
    cases hfirst : positions[first]? with
    | none => simp [ih, hfirst]
    | some found =>
      simp only [List.mem_cons, ih, Std.HashMap.getElem?_erase, beq_iff_eq]
      constructor
      · rintro (rfl | ⟨slot, hslot, hplace⟩)
        · exact ⟨first, .inl rfl, hfirst⟩
        · split at hplace
          · exact absurd hplace (by simp)
          · exact ⟨slot, .inr hslot, hplace⟩
      · rintro ⟨slot, rfl | hslot, hplace⟩
        · exact .inl (Option.some.inj (hplace.symm.trans hfirst))
        · by_cases heq : first = slot
          · subst heq
            exact .inl (Option.some.inj (hplace.symm.trans hfirst))
          · exact .inr ⟨slot, hslot, by rw [if_neg heq, hplace]⟩

/-- A place that has been left is empty, every other one is as it was. -/
theorem getElem?_clear (entries : List (Option Member)) (places : List Nat) (i : Nat) :
    (clear entries places)[i]? =
      if i ∈ places then entries[i]?.map fun _ => none else entries[i]? := by
  induction places generalizing entries with
  | nil => rfl
  | cons first places ih =>
    rw [clear, List.foldl_cons, ← clear, ih, List.getElem?_set]
    by_cases heq : first = i
    · subst heq
      by_cases hlt : first < entries.length <;> simp [hlt]
    · simp [heq, Ne.symm heq]

namespace Consistent

variable {table : SlotTable} {new : Member}

/-- The places that are found for the slots that give way are those of the members that do. -/
theorem mem_remove_iff (h : table.Consistent) {place : Nat} :
    place ∈ (remove table.positions new.replaces).1 ↔
      ∃ m, table.entries[place]? = some (some m) ∧ m.slot ∈ new.replaces := by
  rw [SlotTable.mem_remove_iff]
  constructor
  · rintro ⟨slot, hslot, hplace⟩
    obtain ⟨m, hm, rfl⟩ := (h slot place).mp hplace
    exact ⟨m, hm, hslot⟩
  · rintro ⟨m, hm, hslot⟩
    exact ⟨m.slot, hslot, (h m.slot place).mpr ⟨m, hm, rfl⟩⟩

/-- The places that are left are those of the members that give way. -/
theorem clear_eq (h : table.Consistent) :
    clear table.entries (remove table.positions new.replaces).1 =
      table.entries.map (Option.filter fun m => m.slot ∉ new.replaces) := by
  ext1 i
  rw [getElem?_clear, List.getElem?_map]
  cases hi : table.entries[i]? with
  | none => simp
  | some entry =>
    cases entry with
    | none => simp
    | some m =>
      by_cases hslot : m.slot ∈ new.replaces <;>
        simp [h.mem_remove_iff, hi, hslot, Option.filter]

/-- What adding a member does: it goes to the end when none gives way, and otherwise to the place of
the first that does, and the others that do are taken out. -/
theorem insert_cases (h : table.Consistent) (new : Member) :
    ((∀ m, some m ∈ table.entries → m.slot ∉ new.replaces) ∧
      table.insert new = ⟨table.entries ++ [some new],
        (remove table.positions new.replaces).2.insert new.slot table.entries.length⟩) ∨
    ∃ before first after, table.entries = before ++ some first :: after ∧
      (∀ m, some m ∈ before → m.slot ∉ new.replaces) ∧ first.slot ∈ new.replaces ∧
      table.insert new =
        ⟨before ++ some new :: after.map (Option.filter (·.slot ∉ new.replaces)),
          (remove table.positions new.replaces).2.insert new.slot before.length⟩ := by
  cases hmin : (remove table.positions new.replaces).1.min? with
  | none =>
    rw [List.min?_eq_none_iff] at hmin
    refine .inl ⟨fun m hm hslot => ?_, by simp [insert, hmin]⟩
    obtain ⟨place, hplace⟩ := List.mem_iff_getElem?.mp hm
    have hfound := h.mem_remove_iff.mpr ⟨m, hplace, hslot⟩
    rw [hmin] at hfound
    exact List.not_mem_nil hfound
  | some place =>
    obtain ⟨hfound, hleast⟩ := List.min?_eq_some_iff.mp hmin
    obtain ⟨first, hfirst, hslot⟩ := h.mem_remove_iff.mp hfound
    have hlt : place < table.entries.length := (List.getElem?_eq_some_iff.mp hfirst).1
    have hsplit : table.entries =
        table.entries.take place ++ some first :: table.entries.drop (place + 1) := by
      rw [← List.drop_eq_cons hfirst, List.take_append_drop]
    have hbefore (m : Member) (hm : some m ∈ table.entries.take place) :
        m.slot ∉ new.replaces := by
      intro hslot'
      obtain ⟨i, hi, hat⟩ := List.mem_take_iff_getElem.mp hm
      have hle := hleast i (h.mem_remove_iff.mpr ⟨m, by simp [← hat], hslot'⟩)
      omega
    have hkept : (table.entries.take place).map (Option.filter (·.slot ∉ new.replaces)) =
        table.entries.take place := by
      conv_rhs => rw [← List.map_id (table.entries.take place)]
      refine List.map_congr_left fun entry hentry => ?_
      cases entry with
      | none => rfl
      | some m => simp [Option.filter, hbefore m hentry]
    have hlength : (table.entries.take place).length = place := by simp; omega
    refine .inr ⟨_, first, _, hsplit, hbefore, hslot, ?_⟩
    have hset : (clear table.entries (remove table.positions new.replaces).1).set place (some new) =
        table.entries.take place ++ some new ::
          (table.entries.drop (place + 1)).map (Option.filter (·.slot ∉ new.replaces)) := by
      rw [h.clear_eq]
      conv_lhs => rw [hsplit, List.map_append, hkept]
      rw [List.set_append_right _ _ (by omega), hlength, Nat.sub_self]
      rfl
    simp only [insert, hmin, hset, hlength]

/-- After a member has been added, it has a place, at which only a member that gives way can have
stood, and the others that do not give way are where they were. -/
theorem exists_place (h : table.Consistent) (new : Member) :
    ∃ place,
      (table.insert new).positions =
        (remove table.positions new.replaces).2.insert new.slot place ∧
      (∀ m, table.entries[place]? = some (some m) → m.slot ∈ new.replaces) ∧
      ∀ i m, (table.insert new).entries[i]? = some (some m) ↔
        (i = place ∧ m = new) ∨
          (table.entries[i]? = some (some m) ∧ m.slot ∉ new.replaces) := by
  obtain ⟨hnone, hinsert⟩ | ⟨before, first, after, hsplit, hbefore, hfirst, hinsert⟩ :=
    h.insert_cases new
  · refine ⟨table.entries.length, by rw [hinsert], fun m hm => by simp at hm, fun i m => ?_⟩
    have hkept : table.entries[i]? = some (some m) → m.slot ∉ new.replaces :=
      fun hi => hnone m (List.mem_of_getElem? hi)
    rw [hinsert]
    rcases Nat.lt_trichotomy i table.entries.length with hlt | rfl | hgt
    · rw [List.getElem?_append_left hlt]
      have hne : i ≠ table.entries.length := by omega
      simpa [hne] using hkept
    · simp [eq_comm]
    · have hne : i ≠ table.entries.length := by omega
      rw [List.getElem?_eq_none (by simp; omega), List.getElem?_eq_none (by omega)]
      simp [hne]
  · refine ⟨before.length, by rw [hinsert], fun m hm => ?_, fun i m => ?_⟩
    · obtain rfl : first = m := by simpa [hsplit] using hm
      exact hfirst
    · rw [hinsert, hsplit]
      rcases Nat.lt_trichotomy i before.length with hlt | rfl | hgt
      · have hkept : before[i]? = some (some m) → m.slot ∉ new.replaces :=
          fun hi => hbefore m (List.mem_of_getElem? hi)
        have hne : i ≠ before.length := by omega
        rw [List.getElem?_append_left hlt, List.getElem?_append_left hlt]
        simpa [hne] using hkept
      · have hat (entry : Option Member) (rest : List (Option Member)) :
            (before ++ entry :: rest)[before.length]? = some entry := by simp
        simp only [hat, Option.some.injEq, true_and]
        constructor
        · exact fun heq => .inl heq.symm
        · rintro (rfl | ⟨rfl, hslot⟩)
          · rfl
          · exact absurd hfirst hslot
      · have hne : i ≠ before.length := by omega
        obtain ⟨j, rfl⟩ := Nat.exists_eq_add_of_lt hgt
        rw [List.getElem?_append_right (by omega), List.getElem?_append_right (by omega)]
        have hsub : before.length + j + 1 - before.length = j + 1 := by omega
        simp [hne, hsub, Option.filter_eq_some_iff]

/-- A table finds the same members after one has been added. -/
theorem insert (h : table.Consistent) (new : Member) : (table.insert new).Consistent := by
  obtain ⟨place, hpositions, hgives, hentries⟩ := h.exists_place new
  -- The slot of the new member is among those that were taken out, so no place is found twice.
  have hnew : new.slot ∈ new.replaces := Overrides.slot_mem (.refl new)
  intro slot i
  rw [hpositions, Std.HashMap.getElem?_insert, getElem?_remove]
  simp only [hentries, beq_iff_eq]
  constructor
  · intro hi
    split at hi
    · next hslot =>
      cases hi
      exact ⟨new, .inl ⟨rfl, rfl⟩, hslot⟩
    · split at hi
      · exact absurd hi (by simp)
      · next hslot =>
        obtain ⟨m, hm, rfl⟩ := (h slot i).mp hi
        exact ⟨m, .inr ⟨hm, hslot⟩, rfl⟩
  · rintro ⟨m, ⟨rfl, rfl⟩ | ⟨hm, hslot⟩, rfl⟩
    · rw [if_pos rfl]
    · have hne : new.slot ≠ m.slot := fun heq => hslot (heq ▸ hnew)
      rw [if_neg hne, if_neg hslot]
      exact (h m.slot i).mpr ⟨m, hm, rfl⟩

/-- What is at the places after a member has been added. -/
theorem live_insert (h : table.Consistent) (new : Member) :
    (table.insert new).live = new.insert table.live := by
  obtain ⟨hnone, hinsert⟩ | ⟨before, first, after, hsplit, hbefore, hfirst, hinsert⟩ :=
    h.insert_cases new
  · have hlive : ∀ m ∈ table.live, m.slot ∉ new.replaces := by simpa [live] using hnone
    rw [hinsert, insert_of_forall hlive]
    simp [live]
  · have hlive : ∀ m ∈ before.filterMap id, m.slot ∉ new.replaces := by simpa using hbefore
    have hlater : (after.map (Option.filter (·.slot ∉ new.replaces))).filterMap id =
        (after.filterMap id).filter (·.slot ∉ new.replaces) := by
      rw [List.filterMap_map, List.filter_filterMap]
      rfl
    have hbehind (m : Member) (rest : List (Option Member)) :
        (some m :: rest).filterMap id = m :: rest.filterMap id := rfl
    rw [hinsert, live, live, hsplit, List.filterMap_append, List.filterMap_append, hbehind, hbehind,
      insert_of_first hlive hfirst, hlater]

/-- No two members that have a place have the same slot. -/
theorem nodup_slots (h : table.Consistent) : (table.live.map slot).Nodup := by
  rw [List.Nodup, List.pairwise_map, live, List.pairwise_filterMap, List.pairwise_iff_getElem]
  intro i j hi hj hlt m hm m' hm' hslot
  have hplace : table.positions[m.slot]? = some i :=
    (h _ i).mpr ⟨m, List.getElem?_eq_some_iff.mpr ⟨hi, hm⟩, rfl⟩
  have hplace' : table.positions[m.slot]? = some j :=
    (h _ j).mpr ⟨m', List.getElem?_eq_some_iff.mpr ⟨hj, hm'⟩, hslot.symm⟩
  have heq := Option.some.inj (hplace.symm.trans hplace')
  omega

end Consistent

/-- The empty table finds nothing, and nothing is in it. -/
theorem consistent_empty : empty.Consistent := by
  intro slot place
  simp [empty]

/-- After some members, the table is consistent, and what is at its places are the members that are
left. -/
theorem ofMembers_consistent (written : List Member) :
    (ofMembers written).Consistent ∧ (ofMembers written).live = insertAll written := by
  induction written using List.reverseRecOn with
  | nil => exact ⟨consistent_empty, rfl⟩
  | append_singleton written last ih =>
    obtain ⟨hconsistent, hlive⟩ := ih
    rw [insertAll_concat, ← hlive]
    simp only [ofMembers, List.foldl_append, List.foldl_cons, List.foldl_nil]
    exact ⟨hconsistent.insert last, hconsistent.live_insert last⟩

end SlotTable

/-! ### The slots of a literal -/

/-- That two members can be kept beside each other: when they have the same name, one of them is a
getter and the other one a setter. -/
def Coexist (m m' : Member) : Prop :=
  m.key.name = m'.key.name →
    m.accessor? ≠ none ∧ m'.accessor? ≠ none ∧ m.accessor? ≠ m'.accessor?

/-- Members are kept beside each other in either order. -/
theorem Coexist.symm {m m' : Member} (h : m.Coexist m') : m'.Coexist m := fun hname =>
  have ⟨hm, hm', hne⟩ := h hname.symm
  ⟨hm', hm, hne.symm⟩

/-- A member that does not give way to another one can be kept beside it. -/
theorem coexist_of_slot_notMem {new m : Member} (h : m.slot ∉ new.replaces) : new.Coexist m := by
  intro hname
  have hnot : ¬new.Overrides m := fun hoverrides => h hoverrides.slot_mem
  simpa [Overrides, hname] using hnot

/-- A member can be kept beside all that are left. -/
theorem pairwise_insert {before : List Member} (h : before.Pairwise Coexist) (new : Member) :
    (new.insert before).Pairwise Coexist := by
  induction before with
  | nil => exact List.pairwise_singleton ..
  | cons m rest ih =>
    obtain ⟨hm, hrest⟩ := List.pairwise_cons.mp h
    rw [insert]
    split
    · refine .cons (fun m' hm' => coexist_of_slot_notMem ?_) (hrest.filter _)
      simpa using (List.mem_filter.mp hm').2
    · next hslot =>
      refine .cons (fun m' hm' => ?_) (ih hrest)
      obtain rfl | ⟨hm', -⟩ := mem_insert_iff.mp hm'
      · exact (coexist_of_slot_notMem hslot).symm
      · exact hm m' hm'

/-- The members that are kept can all be kept beside each other. -/
theorem pairwise_insertAll (written : List Member) : (insertAll written).Pairwise Coexist := by
  induction written using List.reverseRecOn with
  | nil => exact .nil
  | append_singleton written last ih =>
    rw [insertAll_concat]
    exact pairwise_insert ih last

/-- Of the members of a literal that is accepted, no two have the same name, but for a getter and a
setter, and no two have the same slot. Each is one that is written, and the last one that is written
is among them. They are what stands at the places of the table of slots in the end: after every
member, this table finds exactly the slots of the members that are left, each at its own place. -/
theorem members_have_own_slots {body : List Token} {result : List Member}
    (h : ofBody body = .ok result) :
    result.Pairwise Coexist ∧ (result.map slot).Nodup ∧
      ∃ written, readEach body = .ok written ∧ (∀ m ∈ result, m ∈ written) ∧
        (∀ last ∈ written.getLast?, last ∈ result) ∧
        (∀ n, (SlotTable.ofMembers (written.take n)).Consistent ∧
          (SlotTable.ofMembers (written.take n)).live = insertAll (written.take n)) ∧
        insertAll written = result := by
  obtain ⟨written, hread, rfl⟩ := ofBody_eq_ok_iff.mp h
  obtain ⟨hconsistent, hlive⟩ := SlotTable.ofMembers_consistent written
  refine ⟨pairwise_insertAll written, hlive ▸ hconsistent.nodup_slots, written, hread,
    fun m hm => ?_, fun last hlast => ?_, fun n => SlotTable.ofMembers_consistent _, rfl⟩
  · obtain ⟨i, hi, -⟩ := mem_insertAll_iff.mp hm
    exact List.mem_of_getElem? hi
  · obtain ⟨before, rfl⟩ := List.getLast?_eq_some_iff.mp hlast
    rw [insertAll_concat]
    exact mem_insert_iff.mpr (.inl rfl)

/-- A value takes the place of a getter and of the setter behind it, and a getter with the name of a
slot stands beside it. -/
theorem members_have_own_slots_of_accessors :
    ∃ body result,
      tokenize "get a() \x7b\x7d, b: 1, set a(v) \x7b\x7d, a: 2, get 'get a'() \x7b\x7d" =
        .ok body ∧ ofBody body = .ok result ∧ result.map (·.key.name) = ["a", "b", "get a"] ∧
      result.Pairwise Coexist ∧ (result.map slot).Nodup := by
  let body := (tokenize
    "get a() \x7b\x7d, b: 1, set a(v) \x7b\x7d, a: 2, get 'get a'() \x7b\x7d").toOption.getD []
  have hresult : (ofBody body).toOption.map (·.map (·.key.name)) = some ["a", "b", "get a"] := by
    decide +kernel
  obtain ⟨result, hread, hnames⟩ := Option.map_eq_some_iff.mp hresult
  have hread := Except.toOption_eq_some_iff.mp hread
  obtain ⟨hcoexist, hslots, -⟩ := members_have_own_slots hread
  exact ⟨body, result, by decide +kernel, hread, hnames, hcoexist, hslots⟩

end Member

end Reclass
