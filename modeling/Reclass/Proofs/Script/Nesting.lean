import Reclass.Proofs.Script.Matching

/-!
# Tokens inside of groups

A group of a run of tokens is given by two indices that match. Balanced tokens close all groups that
they open, so that they say nothing on which of the tokens behind them stand inside of a group.
-/

namespace Reclass

namespace Script

/-- That an index lies inside of a group: behind the delimiter that opens it, and before the one
that closes it. -/
def InsideGroup (tokens : List Token) (i : Nat) : Prop :=
  ∃ index close, Matches tokens index close ∧ index < i ∧ i < close

/-- The first token lies in no group. -/
theorem not_insideGroup_zero (tokens : List Token) : ¬InsideGroup tokens 0 := by
  rintro ⟨_, _, _, hlt, _⟩
  omega

/-- Further tokens in front move a match, and nothing else. -/
theorem matches_append_iff (before : List Token) {tokens : List Token} {index close : Nat} :
    Matches (before ++ tokens) (before.length + index) (before.length + close) ↔
      Matches tokens index close := by
  have hextract : (before ++ tokens).extract (before.length + index + 1) (before.length + close) =
      tokens.extract (index + 1) close := by
    rw [List.extract_eq_take_drop, List.extract_eq_take_drop, Nat.add_assoc,
      List.drop_length_add_append, Nat.add_sub_add_left]
  have hget (i : Nat) : (before ++ tokens)[before.length + i]? = tokens[i]? := by
    rw [List.getElem?_append_right (Nat.le_add_right _ _), Nat.add_sub_cancel_left]
  constructor
  · rintro ⟨hlt, hinside, hpair⟩
    rw [hextract] at hinside
    simp only [hget] at hpair
    exact ⟨by omega, hinside, hpair⟩
  · rintro ⟨hlt, hinside, hpair⟩
    refine ⟨by omega, ?_, ?_⟩
    · rwa [hextract]
    · simpa only [hget] using hpair

/-- The two delimiters of a group match, whatever follows. -/
theorem matches_group {opener closer : Token} {b : Bracket} {inside : List Token}
    (hopens : opener.opens? = some b) (hcloses : closer.closes? = some b)
    (hinside : Balanced inside) (rest : List Token) :
    Matches (opener :: (inside ++ closer :: rest)) 0 (inside.length + 1) where
  lt := by omega
  inside := by simpa [List.extract_eq_take_drop] using hinside
  pair := ⟨opener, closer, b, rfl, by simp, hopens, hcloses⟩

/-- The groups of balanced tokens close among them, whatever follows. -/
theorem Balanced.exists_matches {tokens : List Token} (h : Balanced tokens) {index : Nat}
    {opener : Token} (hopener : tokens[index]? = some opener) (hopens : opener.opens? ≠ none)
    (after : List Token) : ∃ close < tokens.length, Matches (tokens ++ after) index close := by
  induction h generalizing index after with
  | nil => simp at hopener
  | @plain t rest hplain _ _ ih =>
    cases index with
    | zero =>
      obtain rfl : t = opener := by simpa using hopener
      exact absurd hplain hopens
    | succ index =>
      obtain ⟨close, hclose, hmatches⟩ := ih (by simpa using hopener) after
      have hmoved := (matches_append_iff [t]).mpr hmatches
      refine ⟨close + 1, by simpa using hclose, ?_⟩
      simpa [Nat.add_comm] using hmoved
  | @group first closer b inside rest hfirst hcloser hinside _ ihInside ihRest =>
    rw [List.cons_append, List.append_assoc, List.cons_append]
    cases index with
    | zero => exact ⟨inside.length + 1, by simp, matches_group hfirst hcloser hinside _⟩
    | succ index =>
      rw [List.getElem?_cons_succ] at hopener
      -- The opening delimiter stands inside of the group, is its last token, or stands behind it.
      rcases Nat.lt_trichotomy index inside.length with hlt | rfl | hgt
      · rw [List.getElem?_append_left hlt] at hopener
        obtain ⟨close, hclose, hmatches⟩ := ihInside hopener (closer :: (rest ++ after))
        have hmoved := (matches_append_iff [first]).mpr hmatches
        refine ⟨close + 1, by simp; omega, ?_⟩
        simpa [Nat.add_comm] using hmoved
      · obtain rfl : closer = opener := by simpa using hopener
        exact absurd (opens?_eq_none_of_closes? hcloser) hopens
      · obtain ⟨i, rfl⟩ := Nat.exists_eq_add_of_lt hgt
        have hopener' : rest[i]? = some opener := by
          rw [List.getElem?_append_right (by omega), Nat.add_assoc, Nat.add_sub_cancel_left]
            at hopener
          exact hopener
        obtain ⟨close, hclose, hmatches⟩ := ihRest hopener' after
        have hmoved := (matches_append_iff (first :: (inside ++ [closer]))).mpr hmatches
        have hlength : (first :: (inside ++ [closer])).length = inside.length + 2 := by simp
        have hindex : inside.length + i + 1 + 1 = inside.length + 2 + i := by omega
        refine ⟨inside.length + 2 + close, by simp; omega, ?_⟩
        rw [hlength] at hmoved
        rw [hindex]
        simpa using hmoved

/-- Behind balanced tokens, others are inside of the same groups as without these. -/
theorem Balanced.insideGroup_append_iff {before tokens : List Token} (h : Balanced before)
    {i : Nat} : InsideGroup (before ++ tokens) (before.length + i) ↔ InsideGroup tokens i := by
  constructor
  · rintro ⟨index, close, hmatches, hindex, hclose⟩
    have hle : before.length ≤ index := by
      by_contra hlt
      obtain ⟨opener, _, b, hopener, _, hopens, _⟩ := hmatches.pair
      rw [List.getElem?_append_left (by omega)] at hopener
      obtain ⟨close', hclose', hmatches'⟩ := h.exists_matches hopener (by simp [hopens]) tokens
      have hfound : matchingIndex 0 (before ++ tokens) index = .ok close :=
        matchingIndex_eq_ok_iff.mpr hmatches
      rw [matchingIndex_eq_ok_iff.mpr hmatches'] at hfound
      cases hfound
      omega
    obtain ⟨index, rfl⟩ := Nat.exists_eq_add_of_le hle
    obtain ⟨close, rfl⟩ := Nat.exists_eq_add_of_le (show before.length ≤ close by omega)
    exact ⟨index, close, (matches_append_iff before).mp hmatches, by omega, by omega⟩
  · rintro ⟨index, close, hmatches, hindex, hclose⟩
    exact ⟨before.length + index, before.length + close,
      (matches_append_iff before).mpr hmatches, by omega, by omega⟩

end Script

end Reclass
