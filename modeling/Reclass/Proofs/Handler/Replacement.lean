import Reclass.Handler.Literal
import Reclass.Script.Stream
import Reclass.Proofs.Outcome
import Mathlib.Data.List.Induction
import Mathlib.Data.Nat.Find
import Mathlib.Tactic.Push

/-!
# Members that replace each other

Evaluating an object literal, a later definition of a name overrides an earlier one, unless one of
them is a getter and the other one a setter. What is kept stands where the first definition stood
that it replaced. Here that rule is stated over the members as they are written, and compared with
`Member.insert`, which goes by slots.
-/

namespace Reclass

namespace Member

/-- That a definition overrides an earlier one: they have the same name, and are not a getter and a
setter. -/
def Overrides (new old : Member) : Prop :=
  new.key.name = old.key.name ∧
    (new.accessor? = none ∨ old.accessor? = none ∨ new.accessor? = old.accessor?)

instance (new old : Member) : Decidable (new.Overrides old) :=
  inferInstanceAs (Decidable (_ ∧ _))

/-- A definition would override itself. -/
theorem Overrides.refl (m : Member) : m.Overrides m := ⟨rfl, .inr (.inr rfl)⟩

/-- A member is a getter, a setter, or none of the two. -/
theorem accessor?_cases (m : Member) :
    m.accessor? = none ∨ m.accessor? = some Modifier.getter.text ∨
      m.accessor? = some Modifier.setter.text := by
  unfold accessor?
  split
  · exact .inr (.inl rfl)
  · exact .inr (.inr rfl)
  · exact .inl rfl

/-- A definition that is overridden has to give way. -/
theorem Overrides.slot_mem {new old : Member} (h : new.Overrides old) :
    old.slot ∈ new.replaces := by
  obtain ⟨hname, hsort⟩ := h
  unfold slot replaces
  rcases new.accessor?_cases with hnew | hnew | hnew <;>
    rcases old.accessor?_cases with hold | hold | hold <;>
      simp [hnew, hold, hname] at hsort ⊢
  all_goals exact absurd hsort (by decide)

/-- The members that are left of those that are written. -/
def insertAll (written : List Member) : List Member :=
  written.foldl (fun before new => new.insert before) []

/-- Of no definitions none is kept. -/
@[simp] theorem insertAll_nil : insertAll [] = [] := rfl

/-- One more definition is inserted behind those before it. -/
@[simp] theorem insertAll_concat (written : List Member) (new : Member) :
    insertAll (written ++ [new]) = new.insert (insertAll written) := by
  simp [insertAll]

/-- A member that gives way to none before it comes last. -/
theorem insert_of_forall {new : Member} {before : List Member}
    (h : ∀ m ∈ before, m.slot ∉ new.replaces) : new.insert before = before ++ [new] := by
  induction before with
  | nil => rfl
  | cons m rest ih =>
    rw [insert, if_neg (h m List.mem_cons_self), ih fun m hm => h m (List.mem_cons_of_mem _ hm)]
    rfl

/-- A member stands at the place of the first one that gives way. -/
theorem insert_of_first {new first : Member} {before after : List Member}
    (hbefore : ∀ m ∈ before, m.slot ∉ new.replaces) (hfirst : first.slot ∈ new.replaces) :
    new.insert (before ++ first :: after) =
      before ++ new :: after.filter (·.slot ∉ new.replaces) := by
  induction before with
  | nil => rw [List.nil_append, insert, if_pos hfirst, List.nil_append]
  | cons m rest ih =>
    rw [List.cons_append, insert, if_neg (hbefore m List.mem_cons_self),
      ih fun m hm => hbefore m (List.mem_cons_of_mem _ hm)]
    rfl

/-- What is left beside a new member is what does not give way to it. -/
theorem mem_insert_iff {new m : Member} {before : List Member} :
    m ∈ new.insert before ↔ m = new ∨ (m ∈ before ∧ m.slot ∉ new.replaces) := by
  induction before with
  | nil => simp [insert]
  | cons first rest ih =>
    rw [insert]
    split
    · next hfirst =>
      simp only [List.mem_cons, List.mem_filter, decide_eq_true_eq]
      constructor
      · rintro (rfl | ⟨hm, hslot⟩)
        · exact .inl rfl
        · exact .inr ⟨.inr hm, hslot⟩
      · rintro (rfl | ⟨rfl | hm, hslot⟩)
        · exact .inl rfl
        · exact absurd hfirst hslot
        · exact .inr ⟨hm, hslot⟩
    · next hfirst =>
      simp only [List.mem_cons, ih]
      constructor
      · rintro (rfl | rfl | ⟨hm, hslot⟩)
        · exact .inr ⟨.inl rfl, hfirst⟩
        · exact .inl rfl
        · exact .inr ⟨.inr hm, hslot⟩
      · rintro (rfl | ⟨rfl | hm, hslot⟩)
        · exact .inr (.inl rfl)
        · exact .inl rfl
        · exact .inr (.inr ⟨hm, hslot⟩)

/-- Of a list with one more member, an index holds either one of the list or that one. -/
private theorem getElem?_concat_eq_some {written : List Member} {last m : Member} {i : Nat} :
    (written ++ [last])[i]? = some m ↔ written[i]? = some m ∨ (i = written.length ∧ m = last) := by
  by_cases hi : i < written.length
  · rw [List.getElem?_append_left hi]
    have hne : i ≠ written.length := by omega
    simp [hne]
  · rw [List.getElem?_append_right (by omega), List.getElem?_eq_none (Nat.le_of_not_lt hi)]
    by_cases heq : i = written.length
    · simp [heq, eq_comm]
    · have hpos : i - written.length ≠ 0 := by omega
      simp [heq, hpos]

private theorem lt_of_getElem?_eq_some {written : List Member} {m : Member} {i : Nat}
    (h : written[i]? = some m) : i < written.length :=
  (List.getElem?_eq_some_iff.mp h).1

/-- A member is left when none that is written later makes it give way. -/
theorem mem_insertAll_iff {written : List Member} {m : Member} :
    m ∈ insertAll written ↔
      ∃ i : Nat, written[i]? = some m ∧
        ∀ (k : Nat) (new : Member), i < k → written[k]? = some new → m.slot ∉ new.replaces := by
  induction written using List.reverseRecOn with
  | nil => simp
  | append_singleton written last ih =>
    rw [insertAll_concat, mem_insert_iff, ih]
    simp only [getElem?_concat_eq_some]
    constructor
    · rintro (rfl | ⟨⟨i, hi, hlater⟩, hslot⟩)
      · refine ⟨written.length, .inr ⟨rfl, rfl⟩, ?_⟩
        rintro k new hk (hnew | ⟨rfl, _⟩)
        · have hlt := lt_of_getElem?_eq_some hnew
          omega
        · omega
      · refine ⟨i, .inl hi, ?_⟩
        rintro k new hk (hnew | ⟨_, rfl⟩)
        · exact hlater k new hk hnew
        · exact hslot
    · rintro ⟨i, hi | ⟨rfl, rfl⟩, hlater⟩
      · have hlt := lt_of_getElem?_eq_some hi
        refine .inr ⟨⟨i, hi, fun k new hk hnew => hlater k new hk (.inl hnew)⟩, ?_⟩
        exact hlater written.length last hlt (.inr ⟨rfl, rfl⟩)
      · exact .inl rfl

/-! ### What evaluating the literal keeps -/

/-- That the definition at an index overrides the one at another. -/
def OverridesAt (written : List Member) (k i : Nat) : Prop :=
  ∃ new old, written[k]? = some new ∧ written[i]? = some old ∧ new.Overrides old

/-- That one definition is at the end of a chain in which each definition replaced the next one,
which had not been overridden until then. -/
inductive Continues (written : List Member) : Nat → Nat → Prop
  | self (i : Nat) : Continues written i i
  | replaced {i k j : Nat} (hlt : k < i) (hoverrides : OverridesAt written i k)
      (hstands : ∀ l, k < l → l < i → ¬OverridesAt written l k)
      (hchain : Continues written k j) : Continues written i j

/-- That a definition stands at some place: that of the first definition of its chains. -/
def StandsAt (written : List Member) (i place : Nat) : Prop :=
  Continues written i place ∧ ∀ j, Continues written i j → place ≤ j

/-- A definition that is kept, where it is written, and where it stands. -/
structure Kept where
  place : Nat
  index : Nat
  member : Member

/-- That a written definition is one of those that are kept. -/
def IsKept (written : List Member) (d : Kept) : Prop :=
  written[d.index]? = some d.member ∧
    (∀ k, d.index < k → ¬OverridesAt written k d.index) ∧
    StandsAt written d.index d.place

/-- That the result is what evaluating the written definitions keeps, in the order of the
places. -/
def EvaluatesTo (written result : List Member) : Prop :=
  ∃ kept : List Kept, kept.map Kept.member = result ∧ (∀ d, d ∈ kept ↔ IsKept written d) ∧
    kept.Pairwise (·.place < ·.place)

/-- Only written definitions override each other. -/
theorem OverridesAt.lt_length {written : List Member} {k i : Nat} (h : OverridesAt written k i) :
    k < written.length ∧ i < written.length := by
  obtain ⟨new, old, hnew, hold, _⟩ := h
  exact ⟨lt_of_getElem?_eq_some hnew, lt_of_getElem?_eq_some hold⟩

variable {written : List Member} {last : Member}

/-- A further definition changes nothing between the earlier ones. -/
private theorem overridesAt_concat {k i : Nat} (hk : k < written.length)
    (hi : i < written.length) :
    OverridesAt (written ++ [last]) k i ↔ OverridesAt written k i := by
  unfold OverridesAt
  rw [List.getElem?_append_left hk, List.getElem?_append_left hi]

/-- What a further definition overrides. -/
private theorem overridesAt_concat_last {i : Nat} (hi : i < written.length) :
    OverridesAt (written ++ [last]) written.length i ↔
      ∃ old, written[i]? = some old ∧ last.Overrides old := by
  unfold OverridesAt
  rw [List.getElem?_append_left hi]
  simp

/-- A chain leads from a definition to an earlier one, or to itself. -/
theorem Continues.le {i j : Nat} (h : Continues written i j) : j ≤ i := by
  induction h with
  | self => exact Nat.le_refl _
  | replaced hlt _ _ _ ih => omega

private theorem continues_concat {i j : Nat} (hi : i < written.length) :
    Continues (written ++ [last]) i j ↔ Continues written i j := by
  constructor
  · intro h
    induction h with
    | self i => exact .self i
    | replaced hlt hoverrides hstands _ ih =>
      refine .replaced hlt ((overridesAt_concat hi (by omega)).mp hoverrides) ?_ (ih (by omega))
      intro l hl hli h
      exact hstands l hl hli ((overridesAt_concat (by omega) (by omega)).mpr h)
  · intro h
    induction h with
    | self i => exact .self i
    | replaced hlt hoverrides hstands _ ih =>
      refine .replaced hlt ((overridesAt_concat hi (by omega)).mpr hoverrides) ?_ (ih (by omega))
      intro l hl hli h
      exact hstands l hl hli ((overridesAt_concat (by omega) (by omega)).mp h)

/-- Every definition stands somewhere. -/
theorem exists_standsAt (written : List Member) (i : Nat) : ∃ place, StandsAt written i place := by
  classical
  have hex : ∃ j, Continues written i j := ⟨i, .self i⟩
  exact ⟨Nat.find hex, Nat.find_spec hex, fun j hj => Nat.find_min' hex hj⟩

/-- A definition stands at one place only. -/
theorem StandsAt.unique {i p q : Nat} (hp : StandsAt written i p) (hq : StandsAt written i q) :
    p = q :=
  Nat.le_antisymm (hp.2 q hq.1) (hq.2 p hp.1)

/-- A definition stands no further back than where it is written. -/
theorem StandsAt.le {i place : Nat} (h : StandsAt written i place) : place ≤ i := h.1.le

private theorem standsAt_concat {i place : Nat} (hi : i < written.length) :
    StandsAt (written ++ [last]) i place ↔ StandsAt written i place := by
  simp only [StandsAt, continues_concat hi]

/-- Only written definitions are kept. -/
theorem IsKept.index_lt {d : Kept} (h : IsKept written d) : d.index < written.length :=
  lt_of_getElem?_eq_some h.1

/-- The definitions that are kept beside a further one are those that it does not override. -/
private theorem isKept_concat {d : Kept} (hd : d.index < written.length) :
    IsKept (written ++ [last]) d ↔ IsKept written d ∧ ¬last.Overrides d.member := by
  unfold IsKept
  rw [List.getElem?_append_left hd, standsAt_concat hd]
  constructor
  · rintro ⟨hmember, hlater, hplace⟩
    refine ⟨⟨hmember, fun k hk h => ?_, hplace⟩, fun h => ?_⟩
    · exact hlater k hk ((overridesAt_concat h.lt_length.1 hd).mpr h)
    · exact hlater _ hd ((overridesAt_concat_last hd).mpr ⟨_, hmember, h⟩)
  · rintro ⟨⟨hmember, hlater, hplace⟩, hlast⟩
    refine ⟨hmember, fun k hk h => ?_, hplace⟩
    have hlt := h.lt_length.1
    rw [List.length_append, List.length_singleton] at hlt
    by_cases hk' : k < written.length
    · exact hlater k hk ((overridesAt_concat hk' hd).mp h)
    · obtain rfl : k = written.length := by omega
      obtain ⟨old, hold, h⟩ := (overridesAt_concat_last hd).mp h
      rw [hmember] at hold
      exact hlast (Option.some.inj hold ▸ h)

/-- The chains of a further definition lead through the kept ones that it overrides. -/
private theorem continues_concat_last {j : Nat} :
    Continues (written ++ [last]) written.length j ↔
      j = written.length ∨
        ∃ d, IsKept written d ∧ last.Overrides d.member ∧ Continues written d.index j := by
  constructor
  · intro h
    cases h with
    | self => exact .inl rfl
    | @replaced _ k _ hlt hoverrides hstands hchain =>
      obtain ⟨old, hold, h⟩ := (overridesAt_concat_last hlt).mp hoverrides
      obtain ⟨place, hplace⟩ := exists_standsAt written k
      refine .inr ⟨⟨place, k, old⟩, ⟨hold, fun l hl hl' => ?_, hplace⟩, h, ?_⟩
      · exact hstands l hl hl'.lt_length.1 ((overridesAt_concat hl'.lt_length.1 hlt).mpr hl')
      · exact (continues_concat hlt).mp hchain
  · rintro (rfl | ⟨d, hd, h, hchain⟩)
    · exact .self _
    · have hlt := hd.index_lt
      refine .replaced hlt ((overridesAt_concat_last hlt).mpr ⟨_, hd.1, h⟩) ?_
        ((continues_concat hlt).mpr hchain)
      intro l hl hl' hoverrides
      exact hd.2.1 l hl ((overridesAt_concat hl' hlt).mp hoverrides)

/-- Where a further definition stands: at the place of the first kept one that it overrides. -/
private theorem isKept_concat_last {d : Kept} (hd : d.index = written.length) :
    IsKept (written ++ [last]) d ↔
      d.member = last ∧ StandsAt (written ++ [last]) written.length d.place := by
  unfold IsKept
  rw [hd, List.getElem?_append_right (Nat.le_refl _), Nat.sub_self, List.getElem?_cons_zero,
    Option.some.injEq]
  constructor
  · rintro ⟨hmember, _, hplace⟩
    exact ⟨hmember.symm, hplace⟩
  · rintro ⟨hmember, hplace⟩
    refine ⟨hmember.symm, fun k hk h => ?_, hplace⟩
    have hlt := h.lt_length.1
    rw [List.length_append, List.length_singleton] at hlt
    omega

section Insert

variable {kept : List Kept} (hkept : ∀ d, d ∈ kept ↔ IsKept written d)

include hkept

private theorem place_lt_length {d : Kept} (hd : d ∈ kept) : d.place < written.length :=
  Nat.lt_of_le_of_lt ((hkept d).mp hd).2.2.le ((hkept d).mp hd).index_lt

/-- A list holds what is kept after a further definition when it holds what that one does not
override, and the definition itself at its place. -/
private theorem mem_iff_isKept_concat {kept' : List Kept} {place : Nat}
    (hplace : StandsAt (written ++ [last]) written.length place)
    (hmem : ∀ d, d ∈ kept' ↔
      d = ⟨place, written.length, last⟩ ∨ (d ∈ kept ∧ ¬last.Overrides d.member)) (d : Kept) :
    d ∈ kept' ↔ IsKept (written ++ [last]) d := by
  rw [hmem, hkept]
  constructor
  · rintro (rfl | ⟨hd, hlast⟩)
    · exact (isKept_concat_last rfl).mpr ⟨rfl, hplace⟩
    · exact (isKept_concat hd.index_lt).mpr ⟨hd, hlast⟩
  · intro hd
    by_cases hlt : d.index < written.length
    · exact .inr ((isKept_concat hlt).mp hd)
    · have hle := hd.index_lt
      rw [List.length_append, List.length_singleton] at hle
      have hindex : d.index = written.length := by omega
      obtain ⟨hmember, hstands⟩ := (isKept_concat_last hindex).mp hd
      have heq := hstands.unique hplace
      cases d
      cases hindex
      cases hmember
      cases heq
      exact .inl rfl

/-- A further definition that overrides nothing comes last. -/
private theorem standsAt_of_forall (hnone : ∀ d ∈ kept, ¬last.Overrides d.member) :
    StandsAt (written ++ [last]) written.length written.length := by
  refine ⟨.self _, fun j hj => ?_⟩
  rcases continues_concat_last.mp hj with rfl | ⟨d, hd, hoverrides, _⟩
  · exact Nat.le_refl _
  · exact absurd hoverrides (hnone d ((hkept d).mpr hd))

/-- A further definition stands where the first kept one stood that it overrides. -/
private theorem standsAt_of_first {before after : List Kept} {first : Kept}
    (hsplit : kept = before ++ first :: after) (hsorted : kept.Pairwise (·.place < ·.place))
    (hbefore : ∀ d ∈ before, ¬last.Overrides d.member) (hfirst : last.Overrides first.member) :
    StandsAt (written ++ [last]) written.length first.place := by
  have hmem : first ∈ kept := by simp [hsplit]
  refine ⟨continues_concat_last.mpr (.inr ⟨first, (hkept _).mp hmem, hfirst,
    ((hkept _).mp hmem).2.2.1⟩), fun j hj => ?_⟩
  rcases continues_concat_last.mp hj with rfl | ⟨d, hd, hoverrides, hchain⟩
  · exact Nat.le_of_lt (place_lt_length hkept hmem)
  · have hle : d.place ≤ j := hd.2.2.2 j hchain
    have hd' : d ∈ before ++ first :: after := hsplit ▸ (hkept d).mpr hd
    rw [hsplit] at hsorted
    have hafter := (List.pairwise_cons.mp (List.pairwise_append.mp hsorted).2.1).1
    rcases List.mem_append.mp hd' with hd' | hd'
    · exact absurd hoverrides (hbefore d hd')
    · rcases List.mem_cons.mp hd' with rfl | hd'
      · exact hle
      · exact Nat.le_trans (Nat.le_of_lt (hafter d hd')) hle

end Insert

/-- Evaluating one more definition: when the members that give way to it are those that it
overrides, inserting it gives what evaluation keeps. -/
theorem EvaluatesTo.insert {result : List Member} (h : EvaluatesTo written result)
    (hagree : ∀ m ∈ result, m.slot ∈ last.replaces → last.Overrides m) :
    EvaluatesTo (written ++ [last]) (last.insert result) := by
  obtain ⟨kept, rfl, hkept, hsorted⟩ := h
  have hgives (d : Kept) (hd : d ∈ kept) :
      d.member.slot ∈ last.replaces ↔ last.Overrides d.member :=
    ⟨hagree _ (List.mem_map_of_mem hd), Overrides.slot_mem⟩
  cases hfind : kept.find? fun d => decide (last.Overrides d.member) with
  | none =>
    have hnone : ∀ d ∈ kept, ¬last.Overrides d.member := by
      simpa using List.find?_eq_none.mp hfind
    refine ⟨kept ++ [⟨written.length, written.length, last⟩], ?_,
      mem_iff_isKept_concat hkept (standsAt_of_forall hkept hnone) fun d => ?_, ?_⟩
    · rw [insert_of_forall, List.map_append]
      · rfl
      · intro m hm
        obtain ⟨d, hd, rfl⟩ := List.mem_map.mp hm
        exact fun hslot => hnone d hd ((hgives d hd).mp hslot)
    · rw [List.mem_append, List.mem_singleton, or_comm]
      exact or_congr_right ⟨fun hd => ⟨hd, hnone d hd⟩, And.left⟩
    · refine List.pairwise_append.mpr ⟨hsorted, List.pairwise_singleton _ _, ?_⟩
      rintro d hd _ hlast
      rw [List.mem_singleton.mp hlast]
      exact place_lt_length hkept hd
  | some first =>
    obtain ⟨hfirst, before, after, hsplit, hbefore⟩ := List.find?_eq_some_iff_append.mp hfind
    have hfirst : last.Overrides first.member := by simpa using hfirst
    have hbefore : ∀ d ∈ before, ¬last.Overrides d.member := by simpa using hbefore
    have hstands := standsAt_of_first hkept hsplit hsorted hbefore hfirst
    refine ⟨before ++ ⟨first.place, written.length, last⟩ ::
        after.filter fun d => !decide (last.Overrides d.member), ?_,
      mem_iff_isKept_concat hkept hstands fun d => ?_, ?_⟩
    · have hslots : ∀ m ∈ before.map Kept.member, m.slot ∉ last.replaces := by
        intro m hm
        obtain ⟨d, hd, rfl⟩ := List.mem_map.mp hm
        exact fun hslot => hbefore d hd ((hgives d (by simp [hsplit, hd])).mp hslot)
      have hafter : ∀ d ∈ after, ((fun m : Member => decide (m.slot ∉ last.replaces)) ∘
          Kept.member) d = !decide (last.Overrides d.member) := by
        intro d hd
        simp [hgives d (by simp [hsplit, hd])]
      rw [hsplit, List.map_append, List.map_cons, List.map_append, List.map_cons,
        insert_of_first hslots hfirst.slot_mem, List.filter_map, List.filter_congr hafter]
    · rw [hsplit]
      simp only [List.mem_append, List.mem_cons, List.mem_filter, Bool.not_eq_true',
        decide_eq_false_iff_not]
      constructor
      · rintro (hd | rfl | ⟨hd, hlast⟩)
        · exact .inr ⟨.inl hd, hbefore d hd⟩
        · exact .inl rfl
        · exact .inr ⟨.inr (.inr hd), hlast⟩
      · rintro (rfl | ⟨hd | rfl | hd, hlast⟩)
        · exact .inr (.inl rfl)
        · exact .inl hd
        · exact absurd hfirst hlast
        · exact .inr (.inr ⟨hd, hlast⟩)
    · rw [hsplit, List.pairwise_append, List.pairwise_cons] at hsorted
      obtain ⟨hsorted, ⟨hplace, hrest⟩, hcross⟩ := hsorted
      refine List.pairwise_append.mpr ⟨hsorted, List.pairwise_cons.mpr ⟨?_, ?_⟩, ?_⟩
      · exact fun d hd => hplace d (List.mem_filter.mp hd).1
      · exact hrest.filter _
      · intro d hd e he
        rcases List.mem_cons.mp he with rfl | he
        · exact hcross d hd first List.mem_cons_self
        · exact hcross d hd e (List.mem_cons_of_mem _ (List.mem_filter.mp he).1)

/-- Nothing is written and nothing is kept. -/
theorem evaluatesTo_nil : EvaluatesTo [] [] := by
  refine ⟨[], rfl, fun d => ?_, .nil⟩
  simp [IsKept]

/-- That the slots take nothing for an overriding definition that is none: where a definition has
to give way to a later one, it has been overridden by then. -/
def SlotsAgree (written : List Member) : Prop :=
  ∀ (i j : Nat) (old new : Member), i < j → written[i]? = some old → written[j]? = some new →
    old.slot ∈ new.replaces → ∃ k, i < k ∧ k ≤ j ∧ OverridesAt written k i

private theorem SlotsAgree.of_concat (h : SlotsAgree (written ++ [last])) :
    SlotsAgree written := by
  intro i j old new hij hold hnew hslot
  have hi := lt_of_getElem?_eq_some hold
  have hj := lt_of_getElem?_eq_some hnew
  obtain ⟨k, hik, hkj, hoverrides⟩ := h i j old new hij
    (by rw [List.getElem?_append_left hi, hold]) (by rw [List.getElem?_append_left hj, hnew]) hslot
  exact ⟨k, hik, hkj, (overridesAt_concat (by omega) hi).mp hoverrides⟩

private theorem SlotsAgree.take (h : SlotsAgree written) (n : Nat) :
    SlotsAgree (written.take n) := by
  induction written using List.reverseRecOn with
  | nil => simpa using h
  | append_singleton written last ih =>
    by_cases hn : n ≤ written.length
    · rw [List.take_append_of_le_length hn]
      exact ih h.of_concat
    · rw [List.take_of_length_le (by simp; omega)]
      exact h

/-- What `insertAll` leaves is what evaluation keeps, when the slots take nothing else for an
overriding definition. -/
theorem SlotsAgree.evaluatesTo (h : SlotsAgree written) :
    EvaluatesTo written (insertAll written) := by
  induction written using List.reverseRecOn with
  | nil => exact evaluatesTo_nil
  | append_singleton written last ih =>
    have hwritten := ih h.of_concat
    rw [insertAll_concat]
    refine hwritten.insert fun m hm hslot => ?_
    obtain ⟨kept, hresult, hkept, _⟩ := hwritten
    rw [← hresult] at hm
    obtain ⟨d, hd, rfl⟩ := List.mem_map.mp hm
    have hd := (hkept d).mp hd
    have hlt := hd.index_lt
    obtain ⟨k, hk, hk', hoverrides⟩ := h d.index written.length d.member last hlt
      (by rw [List.getElem?_append_left hlt, hd.1]) (by simp) hslot
    by_cases hkn : k < written.length
    · exact absurd ((overridesAt_concat hkn hlt).mp hoverrides) (hd.2.1 k hk)
    · obtain rfl : k = written.length := by omega
      obtain ⟨old, hold, h⟩ := (overridesAt_concat_last hlt).mp hoverrides
      rw [hd.1] at hold
      exact Option.some.inj hold ▸ h

/-- A definition that is not overridden is left by evaluation. -/
theorem EvaluatesTo.mem {result : List Member} (h : EvaluatesTo written result) {i : Nat}
    {m : Member} (hm : written[i]? = some m)
    (hlater : ∀ k, i < k → ¬OverridesAt written k i) : m ∈ result := by
  obtain ⟨kept, rfl, hkept, _⟩ := h
  obtain ⟨place, hplace⟩ := exists_standsAt written i
  exact List.mem_map.mpr ⟨⟨place, i, m⟩, (hkept _).mpr ⟨hm, hlater, hplace⟩, rfl⟩

private theorem overridesAt_take {n k i : Nat} (hk : k < n) (hi : i < n) :
    OverridesAt (written.take n) k i ↔ OverridesAt written k i := by
  unfold OverridesAt
  rw [List.getElem?_take_of_lt hk, List.getElem?_take_of_lt hi]

/-- The members that are left while the literal is read are what evaluation keeps so far exactly
when the slots take nothing else for an overriding definition. -/
theorem slotsAgree_iff (written : List Member) :
    SlotsAgree written ↔ ∀ n, EvaluatesTo (written.take n) (insertAll (written.take n)) := by
  constructor
  · exact fun h n => (h.take n).evaluatesTo
  · intro h i j old new hij hold hnew hslot
    by_contra hnone
    push Not at hnone
    have hold' : (written.take (j + 1))[i]? = some old := by
      rw [List.getElem?_take_of_lt (by omega), hold]
    have hlater : ∀ k, i < k → ¬OverridesAt (written.take (j + 1)) k i := by
      intro k hk hoverrides
      have hlt := hoverrides.lt_length.1
      rw [List.length_take] at hlt
      exact hnone k hk (by omega) ((overridesAt_take (by omega) (by omega)).mp hoverrides)
    have hleft := (h (j + 1)).mem hold' hlater
    rw [List.take_add_one, hnew, Option.toList_some, insertAll_concat, mem_insert_iff] at hleft
    rcases hleft with rfl | ⟨_, hnot⟩
    · exact hnone j hij (Nat.le_refl j) ⟨old, old, hnew, hold, .refl old⟩
    · exact hnot hslot

private theorem get_append_ne_set_append (s t : String) : "get " ++ s ≠ "set " ++ t := by
  intro h
  have hhead := congrArg (·.toList.head?) h
  simp at hhead

/-- Names that do not start with the word of an accessor and a space are told apart. -/
private theorem overrides_of_slot_mem {new old : Member} (hslot : old.slot ∈ new.replaces)
    (hold : ∀ accessor ∈ ["get ", "set "], old.key.name ≠ accessor ++ new.key.name)
    (hnew : ∀ accessor ∈ ["get ", "set "], new.key.name ≠ accessor ++ old.key.name) :
    new.Overrides old := by
  have hgetOld := hold "get " (by simp)
  have hsetOld := hold "set " (by simp)
  have hgetNew := hnew "get " (by simp)
  have hsetNew := hnew "set " (by simp)
  unfold slot replaces at hslot
  unfold Overrides
  rcases new.accessor?_cases with hn | hn | hn <;> rcases old.accessor?_cases with ho | ho | ho <;>
    simp only [hn, ho, Modifier.text, List.mem_cons, List.not_mem_nil, or_false, hgetOld, hsetOld,
      String.append_right_inj, get_append_ne_set_append, (get_append_ne_set_append _ _).symm,
      Ne.symm hgetNew, Ne.symm hsetNew, false_or] at hslot ⊢
  all_goals simp_all

/-- The slots take nothing for an overriding definition that is none when no name is another one
behind the word of an accessor. -/
theorem slotsAgree_of_names
    (h : ∀ a ∈ written, ∀ b ∈ written, ∀ accessor ∈ ["get ", "set "],
      a.key.name ≠ accessor ++ b.key.name) : SlotsAgree written := by
  intro i j old new hij hold hnew hslot
  have hold' := List.mem_of_getElem? hold
  have hnew' := List.mem_of_getElem? hnew
  exact ⟨j, hij, Nat.le_refl j, new, old, hnew, hold,
    overrides_of_slot_mem hslot (h old hold' new hnew') (h new hnew' old hold')⟩

/-- Only overridden definitions are lost exactly when each one that has to give way to a later
definition is overridden by a later one. -/
theorem lost_only_if_overridden_iff (written : List Member) :
    (∀ (i : Nat) (m : Member), written[i]? = some m → m ∉ insertAll written →
        ∃ k, i < k ∧ OverridesAt written k i) ↔
      ∀ (i j : Nat) (old new : Member), i < j → written[i]? = some old →
        written[j]? = some new → old.slot ∈ new.replaces →
        ∃ k, i < k ∧ OverridesAt written k i := by
  constructor
  · intro h i j old new hij hold hnew hslot
    by_contra hnone
    push Not at hnone
    have hleft : old ∈ insertAll written := by
      by_contra hlost
      obtain ⟨k, hik, hoverrides⟩ := h i old hold hlost
      exact hnone k hik hoverrides
    obtain ⟨i', hi', hlater⟩ := mem_insertAll_iff.mp hleft
    have hge : j ≤ i' := by
      by_contra hlt
      exact hlater j new (by omega) hnew hslot
    exact hnone i' (by omega) ⟨old, old, hi', hold, .refl old⟩
  · intro h i m hm hlost
    by_contra hnone
    push Not at hnone
    refine hlost (mem_insertAll_iff.mpr ⟨i, hm, fun j new hij hnew hslot => ?_⟩)
    obtain ⟨k, hik, hoverrides⟩ := h i j m new hij hm hnew hslot
    exact hnone k hik hoverrides

/-! ### The members of a literal -/

/-- Reads one member; a method must not take the name of the constructor. -/
def readOne (first : Token) (others : List Token) : Except SyntaxError Member := do
  let member ← read first others
  if member.key.name = "constructor" ∧ member.isMethod then
    throw ⟨.constructorMethod, member.offset⟩
  return member

/-- A member is kept when it can be read and is not a method named `constructor`. -/
theorem readOne_eq_ok_iff {first : Token} {others : List Token} {m : Member} :
    readOne first others = .ok m ↔
      read first others = .ok m ∧ ¬(m.key.name = "constructor" ∧ m.isMethod) := by
  rw [readOne]
  cases read first others with
  | error e => simp [bind, Except.bind]
  | ok member =>
    simp only [bind, Except.bind, pure, Except.pure]
    split
    · next hname =>
      simp only [throw, throwThe, MonadExceptOf.throw, reduceCtorEq, false_iff]
      rintro ⟨heq, hnot⟩
      cases heq
      exact hnot hname
    · next hname =>
      rw [Except.ok.injEq]
      constructor
      · rintro rfl
        exact ⟨rfl, hname⟩
      · exact And.left

/-- The members in the order in which they are written, none of them replaced. -/
def readEach (tokens : List Token) : Except SyntaxError (List Member) :=
  match tokens with
  | [] => .ok []
  | t :: rest =>
    match _h : cutAtComma 0 (t :: rest) with
    | ([], _) => .error ⟨.emptyMember, t.start⟩
    | (first :: others, after) => do
      let member ← readOne first others
      (readEach after).map (member :: ·)
termination_by tokens.length
decreasing_by
  have hlt := cutAtComma_length 0 t rest
  rw [_h] at hlt
  exact hlt

/-- A literal with nothing before its first comma is refused at the comma. -/
theorem readAll_of_empty {before : List Member} {t : Token} {rest after : List Token}
    (h : cutAtComma 0 (t :: rest) = ([], after)) :
    readAll before (t :: rest) = .error ⟨.emptyMember, t.start⟩ := by
  rw [readAll]
  split
  · rfl
  · next h' => simp [h] at h'

/-- Read member by member, it is refused there as well. -/
theorem readEach_of_empty {t : Token} {rest after : List Token}
    (h : cutAtComma 0 (t :: rest) = ([], after)) :
    readEach (t :: rest) = .error ⟨.emptyMember, t.start⟩ := by
  rw [readEach]
  split
  · rfl
  · next h' => simp [h] at h'

/-- The first member of a literal is inserted, and reading goes on behind its comma. -/
theorem readAll_of_cut {before : List Member} {t first : Token}
    {rest others after : List Token} (h : cutAtComma 0 (t :: rest) = (first :: others, after)) :
    readAll before (t :: rest) =
      (readOne first others).bind fun member => readAll (member.insert before) after := by
  rw [readAll, readOne]
  split
  · next h' => simp [h] at h'
  · next h' =>
    cases h.symm.trans h'
    cases read first others with
    | error e => rfl
    | ok member =>
      simp only [bind, Except.bind, pure, Except.pure]
      split <;> rfl

/-- Read member by member, the first one stands before those behind its comma. -/
theorem readEach_of_cut {t first : Token} {rest others after : List Token}
    (h : cutAtComma 0 (t :: rest) = (first :: others, after)) :
    readEach (t :: rest) =
      (readOne first others).bind fun member => (readEach after).map (member :: ·) := by
  rw [readEach]
  split
  · next h' => simp [h] at h'
  · next h' =>
    cases h.symm.trans h'
    rfl

/-- Reading a literal is reading its members one by one and inserting them in this order. -/
theorem readAll_eq (before : List Member) (tokens : List Token) :
    readAll before tokens =
      (readEach tokens).map (·.foldl (fun before new => new.insert before) before) := by
  induction before, tokens using readAll.induct with
  | case1 before => simp [readAll, readEach, Except.map]
  | case2 before t rest after h =>
    rw [readAll_of_empty h, readEach_of_empty h]
    rfl
  | case3 before t rest first others after h ih =>
    rw [readAll_of_cut h, readEach_of_cut h]
    cases readOne first others with
    | error e => rfl
    | ok member =>
      simp only [Except.bind, ih member]
      cases readEach after <;> rfl

/-- What a literal leaves of the members that are written in it. -/
theorem ofBody_eq_ok_iff {body : List Token} {result : List Member} :
    ofBody body = .ok result ↔
      ∃ written, readEach body = .ok written ∧ insertAll written = result := by
  rw [ofBody, readAll_eq, Except.map_eq_ok_iff]
  rfl

/-- Of the members of a literal, what evaluation keeps is left throughout exactly when the slots
take nothing else for an overriding definition; and only overridden members are lost exactly when
each member that has to give way to a later one is overridden by a later one. -/
theorem ofBody_evaluates_iff {body : List Token} {result : List Member}
    (h : ofBody body = .ok result) :
    ∃ written, readEach body = .ok written ∧ result = insertAll written ∧
      (SlotsAgree written → EvaluatesTo written result) ∧
      ((∀ n, EvaluatesTo (written.take n) (insertAll (written.take n))) ↔ SlotsAgree written) ∧
      ((∀ (i : Nat) (m : Member), written[i]? = some m → m ∉ result →
          ∃ k, i < k ∧ OverridesAt written k i) ↔
        ∀ (i j : Nat) (old new : Member), i < j → written[i]? = some old →
          written[j]? = some new → old.slot ∈ new.replaces →
          ∃ k, i < k ∧ OverridesAt written k i) := by
  obtain ⟨written, hwritten, rfl⟩ := ofBody_eq_ok_iff.mp h
  exact ⟨written, hwritten, rfl, SlotsAgree.evaluatesTo, (slotsAgree_iff written).symm,
    lost_only_if_overridden_iff written⟩

/-- Of a value and a getter of one name evaluation keeps the getter. -/
theorem ofBody_evaluates_getter :
    ∃ body written result, Script.tokenize "a: 1, get a() \x7b\x7d" = .ok body ∧
      ofBody body = .ok result ∧ readEach body = .ok written ∧ written.length = 2 ∧
      result.length = 1 ∧ EvaluatesTo written result := by
  have hbody : Script.tokenize "a: 1, get a() \x7b\x7d" =
      .ok ((Script.tokenize "a: 1, get a() \x7b\x7d").toOption.getD []) := by
    decide +kernel
  have hresult : ofBody ((Script.tokenize "a: 1, get a() \x7b\x7d").toOption.getD []) =
      .ok [⟨⟨"a", "a", .ident⟩, some ⟨.getter, "()", "\x7b\x7d", false⟩, "get a() \x7b\x7d",
        10⟩] := by
    decide +kernel
  have heach : readEach ((Script.tokenize "a: 1, get a() \x7b\x7d").toOption.getD []) =
      .ok [⟨⟨"a", "a", .ident⟩, none, "1", 0⟩,
        ⟨⟨"a", "a", .ident⟩, some ⟨.getter, "()", "\x7b\x7d", false⟩, "get a() \x7b\x7d",
          10⟩] := by
    decide +kernel
  obtain ⟨written, hwritten, _, hevaluates, _⟩ := ofBody_evaluates_iff hresult
  cases heach.symm.trans hwritten
  refine ⟨_, _, _, hbody, hresult, heach, rfl, rfl, hevaluates (slotsAgree_of_names ?_)⟩
  decide

/-- A getter takes the place of a value whose name is the word `get`, a space and the name of the
getter, although the two names are different. -/
theorem getter_takes_place_of_other_name :
    ∃ body value getter,
      Script.tokenize "'get a': 1, get a() \x7b\x7d" = .ok body ∧
        readEach body = .ok [value, getter] ∧ ofBody body = .ok [getter] ∧
        value.key.name ≠ getter.key.name := by
  have hbody : Script.tokenize "'get a': 1, get a() \x7b\x7d" =
      .ok ((Script.tokenize "'get a': 1, get a() \x7b\x7d").toOption.getD []) := by
    decide +kernel
  refine ⟨_, ⟨⟨"'get a'", "get a", .str⟩, none, "1", 0⟩,
    ⟨⟨"a", "a", .ident⟩, some ⟨.getter, "()", "\x7b\x7d", false⟩, "get a() \x7b\x7d", 16⟩,
    hbody, ?_, ?_, ?_⟩
  · decide +kernel
  · decide +kernel
  · decide

end Member

end Reclass
