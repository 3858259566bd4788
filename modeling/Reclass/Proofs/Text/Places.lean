import Reclass.Text.Position
import Mathlib.Data.List.Basic
import Mathlib.Tactic.ByContra

/-!
# Places in a text

A place is a byte offset between two characters of a text, or at one of its ends. At a place the
position is that behind the text in front of it, and it comes later the further on the place is. So
no two places are written as the same line and column.
-/

namespace Reclass.Text

/-- That a byte offset is a place of a text: it does not fall inside of a character, nor behind the
end. -/
def IsPlace (s : List Char) (offset : Nat) : Prop :=
  ∃ before after, s = before ++ after ∧ byteLength before = offset

/-- That a position comes before another one: it is on an earlier line, or further to the left on
the same line. -/
def Position.Before (p q : Position) : Prop :=
  p.line < q.line ∨ p.line = q.line ∧ p.column < q.column

variable {s : List Char} {offset offset' : Nat}

/-- No place of a text is behind its end. -/
theorem IsPlace.le_byteLength (h : IsPlace s offset) : offset ≤ byteLength s := by
  obtain ⟨before, after, rfl, rfl⟩ := h
  rw [byteLength_append]
  omega

/-- The end of a text is one of its places. -/
theorem isPlace_byteLength (s : List Char) : IsPlace s (byteLength s) :=
  ⟨s, [], (List.append_nil s).symm, rfl⟩

/-- The bytes of the characters of a text are those of the text. -/
theorem byteLength_toList (source : String) : byteLength source.toList = source.utf8ByteSize := by
  have hofList (s : List Char) : byteLength s = (String.ofList s).utf8ByteSize := by
    induction s with
    | nil => rfl
    | cons c s ih =>
      rw [byteLength, ih, String.ofList_cons]
      simp
  rw [hofList, String.ofList_toList]

/-- Between two places of a text there is a text. -/
theorem exists_between {before after before' after' : List Char}
    (h : before ++ after = before' ++ after')
    (hlt : byteLength before < byteLength before') : ∃ mid, mid ≠ [] ∧ before' = before ++ mid := by
  obtain ⟨mid, hmid, -⟩ | ⟨mid, hmid, -⟩ := List.append_eq_append_iff.mp h
  · refine ⟨mid, ?_, hmid⟩
    rintro rfl
    rw [hmid, List.append_nil] at hlt
    omega
  · rw [hmid, byteLength_append] at hlt
    omega

namespace Position

variable {p q : Position}

/-- No position comes before itself. -/
theorem Before.ne (h : p.Before q) : p ≠ q := by
  rintro rfl
  unfold Before at h
  omega

/-- Behind a longer text the position comes later: on a later line, when the further text has a line
feed in it, and otherwise further to the right. -/
theorem after_before (before : List Char) {mid : List Char} (h : mid ≠ []) :
    (Position.after before).Before (Position.after (before ++ mid)) := by
  unfold Before Position.after
  by_cases hfeed : '\n' ∈ mid
  · left
    have hpos := List.count_pos_iff.mpr hfeed
    simp only [List.count_append]
    omega
  · right
    have hcount : mid.count '\n' = 0 := List.count_eq_zero.mpr hfeed
    have hall : ∀ c ∈ mid.reverse, (c != '\n') = true := by
      intro c hc
      rw [bne_iff_ne]
      rintro rfl
      exact hfeed (List.mem_reverse.mp hc)
    have hpos := List.length_pos_iff.mpr h
    simp only [List.count_append, List.reverse_append, List.takeWhile_append_of_pos hall,
      List.length_append, List.length_reverse, hcount, Nat.add_zero, true_and]
    omega

/-- At a place the position is that behind the text in front of it. -/
theorem ofOffset_append (before rest : List Char) :
    ofOffset (before ++ rest) (byteLength before) = .after before := by
  have hle : byteLength before ≤ byteLength (before ++ rest) :=
    IsPlace.le_byteLength ⟨before, rest, rfl, rfl⟩
  rw [ofOffset, Nat.min_eq_left hle, takeBytes?_append, Option.getD_some]

/-- A place further on in a text has a later position. -/
theorem ofOffset_before (h : IsPlace s offset) (h' : IsPlace s offset') (hlt : offset < offset') :
    (ofOffset s offset).Before (ofOffset s offset') := by
  obtain ⟨before, after, rfl, rfl⟩ := h
  obtain ⟨before', after', hsplit, rfl⟩ := h'
  obtain ⟨mid, hmid, rfl⟩ := exists_between hsplit hlt
  rw [ofOffset_append, hsplit, ofOffset_append]
  exact after_before before hmid

/-- Two places with one position are the same. -/
theorem eq_of_ofOffset_eq (h : IsPlace s offset) (h' : IsPlace s offset')
    (heq : ofOffset s offset = ofOffset s offset') : offset = offset' := by
  by_contra hne
  rcases Nat.lt_or_gt_of_ne hne with hlt | hlt
  · exact (ofOffset_before h h' hlt).ne heq
  · exact (ofOffset_before h' h hlt).ne heq.symm

end Position

end Reclass.Text
