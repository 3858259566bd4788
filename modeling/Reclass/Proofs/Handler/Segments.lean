import Reclass.Proofs.Handler.Replacement
import Reclass.Proofs.Script.Nesting

/-!
# The segments of a literal

A property literal is cut at the commas that stand outside of all its groups, and its members are
read from the segments between the cuts. A comma at the end of the literal ends the last segment,
and nothing follows it.
-/

namespace Reclass

open Script

namespace Member

/-- That a literal is cut at an index: a comma stands there, outside of every group. -/
def IsCut (body : List Token) (i : Nat) : Prop :=
  (∃ comma, body[i]? = some comma ∧ comma.isPunct ",") ∧ ¬InsideGroup body i

/-- A part of a literal: the tokens from one index up to another one. -/
structure Segment where
  start : Nat
  stop : Nat

namespace Segment

/-- The tokens of a segment. -/
def tokens (body : List Token) (s : Segment) : List Token := body.extract s.start s.stop

/-- That a segment holds the token at an index. -/
def Holds (s : Segment) (i : Nat) : Prop := s.start ≤ i ∧ i < s.stop

/-- That a literal has a segment. It starts with the literal or behind a cut and ends with the
literal or before a cut, without a cut in between. Behind a comma that ends the literal no segment
starts. -/
structure IsIn (body : List Token) (s : Segment) : Prop where
  le : s.start ≤ s.stop
  starts : s.start = 0 ∨ IsCut body (s.start - 1)
  stops : s.stop = body.length ∨ IsCut body s.stop
  uncut : ∀ i, s.Holds i → ¬IsCut body i
  lt_length : s.start < body.length

/-- What reading a segment comes to. -/
inductive Gives (body : List Token) (s : Segment) : Except SyntaxError Member → Prop
  /-- There is nothing before the comma that ends the segment. -/
  | empty {comma : Token} (htokens : s.tokens body = []) (hcomma : body[s.stop]? = some comma) :
      Gives body s (.error ⟨.emptyMember, comma.start⟩)
  /-- Its tokens cannot be read as a member. -/
  | unread {first : Token} {others : List Token} {e : SyntaxError}
      (htokens : s.tokens body = first :: others) (hread : read first others = .error e) :
      Gives body s (.error e)
  /-- Its tokens are a method with the name of the constructor. -/
  | constructorMethod {first : Token} {others : List Token} {m : Member}
      (htokens : s.tokens body = first :: others) (hread : read first others = .ok m)
      (hname : m.key.name = "constructor") (hmethod : m.isMethod) :
      Gives body s (.error ⟨.constructorMethod, m.offset⟩)
  /-- Its tokens are another member. -/
  | member {first : Token} {others : List Token} {m : Member}
      (htokens : s.tokens body = first :: others) (hread : read first others = .ok m)
      (hname : ¬(m.key.name = "constructor" ∧ m.isMethod)) : Gives body s (.ok m)

end Segment

/-! ### Where a literal is cut -/

/-- A literal is cut at one of its tokens. -/
theorem IsCut.lt_length {body : List Token} {i : Nat} (h : IsCut body i) : i < body.length := by
  obtain ⟨⟨comma, hcomma, _⟩, _⟩ := h
  exact (List.getElem?_eq_some_iff.mp hcomma).1

/-- Tokens behind balanced ones are cut where they are cut without these. -/
theorem isCut_append_iff {before : List Token} (h : Balanced before) (tokens : List Token)
    (i : Nat) :
    IsCut (before ++ tokens) (before.length + i) ↔ IsCut tokens i := by
  rw [IsCut, IsCut, h.insideGroup_append_iff, List.getElem?_append_right (Nat.le_add_right _ _),
    Nat.add_sub_cancel_left]

/-- A comma neither opens nor closes a group. -/
theorem not_delimiter_of_comma {t : Token} (h : t.isPunct ",") :
    t.opens? = none ∧ t.closes? = none :=
  not_delimiter_of_isPunct h fun b => by cases b <;> decide

/-- Inside of a group nothing is cut off. -/
private theorem cutAtComma_inside {inside : List Token} (h : Balanced inside) (depth : Nat)
    (rest : List Token) :
    cutAtComma (depth + 1) (inside ++ rest) =
      (inside ++ (cutAtComma (depth + 1) rest).1, (cutAtComma (depth + 1) rest).2) := by
  induction h generalizing depth rest with
  | nil => rfl
  | plain hopens hcloses _ ih => simp [cutAtComma, hopens, hcloses, ih]
  | group hopens hcloses _ _ ihInside ihRest =>
    simp [cutAtComma, hopens, hcloses, opens?_eq_none_of_closes? hcloses, ihInside, ihRest]

section Group

variable {opener closer : Token} {b : Bracket} {inside : List Token}
  (hopens : opener.opens? = some b) (hcloses : closer.closes? = some b)
  (hinside : Balanced inside)

include hopens hcloses hinside

/-- A group is not cut. -/
private theorem not_isCut_group (rest : List Token) {i : Nat} (hi : i < inside.length + 2) :
    ¬IsCut (opener :: (inside ++ closer :: rest)) i := by
  rintro ⟨⟨comma, hcomma, hispunct⟩, hnot⟩
  by_cases hfirst : i = 0
  · subst hfirst
    obtain rfl : opener = comma := by simpa using hcomma
    simp [(not_delimiter_of_comma hispunct).1] at hopens
  · by_cases hlast : i = inside.length + 1
    · subst hlast
      obtain rfl : closer = comma := by simpa using hcomma
      simp [(not_delimiter_of_comma hispunct).2] at hcloses
    · exact hnot ⟨0, inside.length + 1, matches_group hopens hcloses hinside rest, by omega,
        by omega⟩

/-- A group is not cut off from what follows it. -/
private theorem cutAtComma_group (rest : List Token) :
    cutAtComma 0 (opener :: (inside ++ closer :: rest)) =
      (opener :: (inside ++ closer :: (cutAtComma 0 rest).1), (cutAtComma 0 rest).2) := by
  have hopener : ¬opener.isPunct "," := fun hcomma => by
    simp [(not_delimiter_of_comma hcomma).1] at hopens
  have hbehind : cutAtComma 1 (closer :: rest) =
      (closer :: (cutAtComma 0 rest).1, (cutAtComma 0 rest).2) := by
    simp [cutAtComma, opens?_eq_none_of_closes? hcloses, hcloses]
  rw [cutAtComma, if_neg fun h => hopener h.2]
  simp only [hopens, Option.isSome_some, if_true,
    cutAtComma_inside hinside 0 (closer :: rest), hbehind]

end Group

/-- Balanced tokens are cut off at the first index at which they are cut, or at their end. They are
balanced up to there. -/
theorem cutAtComma_eq {tokens : List Token} (h : Balanced tokens) :
    ∃ n ≤ tokens.length, cutAtComma 0 tokens = (tokens.take n, tokens.drop (n + 1)) ∧
      (∀ i < n, ¬IsCut tokens i) ∧ (n = tokens.length ∨ IsCut tokens n) ∧
      Balanced (tokens.take (n + 1)) := by
  induction h with
  | nil => exact ⟨0, Nat.le_refl _, rfl, by simp, .inl rfl, .nil⟩
  | @plain t rest hopens hcloses _ ih =>
    have hbefore : Balanced [t] := .plain hopens hcloses .nil
    by_cases hcomma : t.isPunct ","
    · exact ⟨0, Nat.zero_le _, by simp [cutAtComma, hcomma], by simp,
        .inr ⟨⟨t, rfl, hcomma⟩, not_insideGroup_zero _⟩, hbefore⟩
    · obtain ⟨n, hn, hcut, huncut, hstop, htake⟩ := ih
      have hmoved (i : Nat) : IsCut (t :: rest) (i + 1) ↔ IsCut rest i := by
        have happend := isCut_append_iff hbefore rest i
        rwa [List.singleton_append, List.length_singleton, Nat.add_comm] at happend
      refine ⟨n + 1, by simpa using hn, ?_, ?_, ?_, .plain hopens hcloses htake⟩
      · simp [cutAtComma, hcomma, hopens, hcloses, hcut]
      · intro i hi
        cases i with
        | zero =>
          rintro ⟨⟨comma, hat, hispunct⟩, _⟩
          obtain rfl : t = comma := by simpa using hat
          exact hcomma hispunct
        | succ i => exact (hmoved i).not.mpr (huncut i (by omega))
      · rw [hmoved, List.length_cons, Nat.add_right_cancel_iff]
        exact hstop
  | @group opener closer b inside rest hopens hcloses hinside _ _ ih =>
    obtain ⟨n, hn, hcut, huncut, hstop, htake⟩ := ih
    have hbefore : Balanced (opener :: (inside ++ [closer])) :=
      .group hopens hcloses hinside .nil
    have hwhole : opener :: (inside ++ closer :: rest) =
        opener :: (inside ++ [closer]) ++ rest := by
      simp
    have hlength : (opener :: (inside ++ [closer])).length = inside.length + 2 := by simp
    have hmoved (i : Nat) : IsCut (opener :: (inside ++ closer :: rest)) (inside.length + 2 + i) ↔
        IsCut rest i := by
      rw [hwhole, ← hlength, isCut_append_iff hbefore rest i]
    refine ⟨inside.length + 2 + n, by simp; omega, ?_, ?_, ?_, ?_⟩
    · rw [cutAtComma_group hopens hcloses hinside, hcut, hwhole, ← hlength,
        List.take_length_add_append, Nat.add_assoc, List.drop_length_add_append]
      simp
    · intro i hi
      by_cases hgroup : i < inside.length + 2
      · exact not_isCut_group hopens hcloses hinside rest hgroup
      · obtain ⟨i, rfl⟩ := Nat.exists_eq_add_of_le (Nat.le_of_not_lt hgroup)
        exact (hmoved i).not.mpr (huncut i (by omega))
    · rw [hmoved]
      exact hstop.imp_left fun heq => by simp [heq]; omega
    · rw [hwhole, ← hlength, Nat.add_assoc, List.take_length_add_append]
      exact hbefore.append htake

/-! ### Segments -/

namespace Segment

variable {body : List Token} {s s' : Segment}

/-- A segment ends in its literal. -/
theorem IsIn.stop_le_length (h : s.IsIn body) : s.stop ≤ body.length := by
  rcases h.stops with hstop | hcut
  · exact Nat.le_of_eq hstop
  · exact Nat.le_of_lt hcut.lt_length

/-- No segment reaches beyond a cut. -/
theorem IsIn.stop_le {i : Nat} (h : s.IsIn body) (hcut : IsCut body i) (hi : s.start ≤ i) :
    s.stop ≤ i := by
  by_contra hlt
  exact h.uncut i ⟨hi, by omega⟩ hcut

/-- A segment that starts before another one stops does not reach beyond it. -/
theorem IsIn.stop_le_stop (h : s.IsIn body) (h' : s'.IsIn body) (hle : s.start ≤ s'.stop) :
    s.stop ≤ s'.stop := by
  rcases h'.stops with hstop | hcut
  · exact hstop ▸ h.stop_le_length
  · exact h.stop_le hcut hle

/-- Segments with the same start are the same. -/
theorem IsIn.eq_of_start (h : s.IsIn body) (h' : s'.IsIn body) (hstart : s.start = s'.start) :
    s = s' := by
  have hle := h.stop_le_stop h' (hstart ▸ h'.le)
  have hle' := h'.stop_le_stop h (hstart ▸ h.le)
  cases s
  cases s'
  obtain rfl := hstart
  obtain rfl := Nat.le_antisymm hle hle'
  rfl

/-- Segments that hold the same token are the same. -/
theorem IsIn.eq_of_holds {i : Nat} (h : s.IsIn body) (h' : s'.IsIn body) (hi : s.Holds i)
    (hi' : s'.Holds i) : s = s' := by
  have hstart {s s' : Segment} (h : s.IsIn body) (h' : s'.IsIn body) (hi : s.Holds i)
      (hi' : s'.Holds i) : s'.start ≤ s.start := by
    obtain ⟨hle, hlt⟩ := hi
    obtain ⟨hle', hlt'⟩ := hi'
    rcases h'.starts with hzero | hcut
    · omega
    · by_contra hbefore
      have hstop := h.stop_le hcut (by omega)
      omega
  exact h.eq_of_start h' (Nat.le_antisymm (hstart h' h hi' hi) (hstart h h' hi hi'))

private theorem gives_iff_of_nil {outcome : Except SyntaxError Member} {comma : Token}
    (htokens : s.tokens body = []) (hcomma : body[s.stop]? = some comma) :
    s.Gives body outcome ↔ outcome = .error ⟨.emptyMember, comma.start⟩ := by
  constructor
  · rintro (⟨_, hcomma'⟩ | ⟨htokens', _⟩ | ⟨htokens', _⟩ | ⟨htokens', _⟩)
    · cases hcomma.symm.trans hcomma'
      rfl
    all_goals simp [htokens] at htokens'
  · rintro rfl
    exact .empty htokens hcomma

/-- A segment with tokens comes to what reading one member from them comes to. -/
theorem gives_iff_of_cons {outcome : Except SyntaxError Member} {first : Token}
    {others : List Token} (htokens : s.tokens body = first :: others) :
    s.Gives body outcome ↔ outcome = readOne first others := by
  have hone (m : Member) (hread : read first others = .ok m)
      (hname : m.key.name = "constructor" ∧ m.isMethod) :
      readOne first others = .error ⟨.constructorMethod, m.offset⟩ := by
    rw [readOne, hread]
    simp [hname, bind, Except.bind, throw, throwThe, MonadExceptOf.throw]
  constructor
  · rintro (⟨htokens', _⟩ | ⟨htokens', hread⟩ | ⟨htokens', hread, hname, hmethod⟩ |
      ⟨htokens', hread, hname⟩) <;> cases htokens.symm.trans htokens'
    · rw [readOne, hread]
      rfl
    · exact (hone _ hread ⟨hname, hmethod⟩).symm
    · exact (readOne_eq_ok_iff.mpr ⟨hread, hname⟩).symm
  · rintro rfl
    cases hread : read first others with
    | error e =>
      rw [readOne, hread]
      exact .unread htokens hread
    | ok m =>
      by_cases hname : m.key.name = "constructor" ∧ m.isMethod
      · rw [hone m hread hname]
        exact .constructorMethod htokens hread hname.1 hname.2
      · rw [readOne_eq_ok_iff.mpr ⟨hread, hname⟩]
        exact .member htokens hread hname

/-- Reading a segment comes to one thing only. -/
theorem Gives.unique {outcome outcome' : Except SyntaxError Member} (h : s.Gives body outcome)
    (h' : s.Gives body outcome') : outcome = outcome' := by
  cases htokens : s.tokens body with
  | nil =>
    cases h with
    | empty _ hcomma => exact ((gives_iff_of_nil htokens hcomma).mp h').symm
    | unread htokens' => simp [htokens] at htokens'
    | constructorMethod htokens' => simp [htokens] at htokens'
    | member htokens' => simp [htokens] at htokens'
  | cons first others =>
    rw [(gives_iff_of_cons htokens).mp h, (gives_iff_of_cons htokens).mp h']

end Segment

/-! ### Reading one segment after the other -/

/-- What reading some segments one after the other comes to. It stops at the first one that is no
member. -/
inductive ReadsTo (body : List Token) :
    List Segment → Except SyntaxError (List Member) → Prop
  | nil : ReadsTo body [] (.ok [])
  | fails {s : Segment} {rest : List Segment} {e : SyntaxError} (h : s.Gives body (.error e)) :
      ReadsTo body (s :: rest) (.error e)
  | member {s : Segment} {rest : List Segment} {m : Member}
      {outcome : Except SyntaxError (List Member)} (h : s.Gives body (.ok m))
      (hrest : ReadsTo body rest outcome) : ReadsTo body (s :: rest) (outcome.map (m :: ·))

namespace ReadsTo

variable {body : List Token} {segments : List Segment}
  {outcome : Except SyntaxError (List Member)}

/-- Reading succeeds when every segment is a member. -/
theorem eq_ok_iff (h : ReadsTo body segments outcome) {written : List Member} :
    outcome = .ok written ↔
      List.Forall₂ (fun s m => s.Gives body (.ok m)) segments written := by
  induction h generalizing written with
  | nil => rw [List.forall₂_nil_left_iff, Except.ok.injEq, eq_comm]
  | fails hfails =>
    refine iff_of_false (by simp) fun hall => ?_
    cases hall with
    | cons hgives _ => cases hfails.unique hgives
  | member hgives _ ih =>
    rw [Except.map_eq_ok_iff]
    constructor
    · rintro ⟨rest, hrest, rfl⟩
      exact .cons hgives (ih.mp hrest)
    · intro hall
      cases hall with
      | cons hgives' hrest =>
        cases hgives.unique hgives'
        exact ⟨_, ih.mpr hrest, rfl⟩

/-- Reading fails with the error of the first segment that is no member. -/
theorem eq_error_iff (h : ReadsTo body segments outcome) {e : SyntaxError} :
    outcome = .error e ↔ ∃ before s after, segments = before ++ s :: after ∧
      (∀ s' ∈ before, ∃ m, s'.Gives body (.ok m)) ∧ s.Gives body (.error e) := by
  induction h with
  | nil => simp
  | @fails s rest e' hfails =>
    constructor
    · intro heq
      cases heq
      exact ⟨[], s, rest, rfl, by simp, hfails⟩
    · rintro ⟨before, s', after, hsplit, hbefore, hgives⟩
      cases before with
      | nil =>
        cases hsplit
        cases hfails.unique hgives
        rfl
      | cons first before =>
        cases hsplit
        obtain ⟨m, hm⟩ := hbefore s List.mem_cons_self
        cases hfails.unique hm
  | @member s rest m outcome hgives _ ih =>
    rw [Except.map_eq_error_iff, ih]
    constructor
    · rintro ⟨before, s', after, rfl, hbefore, hfails⟩
      exact ⟨s :: before, s', after, rfl, List.forall_mem_cons.mpr ⟨⟨m, hgives⟩, hbefore⟩, hfails⟩
    · rintro ⟨before, s', after, hsplit, hbefore, hfails⟩
      cases before with
      | nil =>
        cases hsplit
        cases hgives.unique hfails
      | cons first before =>
        cases hsplit
        exact ⟨before, s', after, rfl, (List.forall_mem_cons.mp hbefore).2, hfails⟩

end ReadsTo

/-- The segments of a literal from an index on, which is its start or stands behind a cut, and what
reading them comes to. -/
theorem exists_segments {body : List Token} (start : Nat) (hbefore : Balanced (body.take start))
    (hbehind : Balanced (body.drop start))
    (hstart : start = 0 ∨ IsCut body (start - 1) ∨ body.length < start) :
    ∃ segments : List Segment, (∀ s, s ∈ segments ↔ s.IsIn body ∧ start ≤ s.start) ∧
      segments.Pairwise (fun s s' => s.stop < s'.start) ∧
      (∀ i < body.length, start ≤ i → ¬IsCut body i → ∃ s ∈ segments, s.Holds i) ∧
      ReadsTo body segments (readEach (body.drop start)) := by
  induction hsize : body.length - start using Nat.strongRecOn generalizing start with
  | ind size ih =>
    by_cases hend : body.length ≤ start
    · refine ⟨[], fun s => ?_, .nil, fun i hi hle => by omega, ?_⟩
      · simp only [List.not_mem_nil, false_iff, not_and]
        intro hs
        have hlt := hs.lt_length
        omega
      · rw [List.drop_eq_nil_of_le hend, readEach]
        exact .nil
    · obtain ⟨n, hn, hcut, huncut, hstop, htake⟩ := cutAtComma_eq hbehind
      have hmoved (i : Nat) : IsCut body (start + i) ↔ IsCut (body.drop start) i := by
        have happend := isCut_append_iff hbefore (body.drop start) i
        rwa [List.take_append_drop, List.length_take, Nat.min_eq_left (by omega)] at happend
      rw [List.length_drop] at hn hstop
      have hfirst : Segment.IsIn body ⟨start, start + n⟩ := {
        le := by simp
        starts := by
          rcases hstart with hzero | hcut | hlt
          · exact .inl hzero
          · exact .inr hcut
          · omega
        stops := by
          rw [hmoved]
          exact hstop.imp_left fun heq => by simp only [heq]; omega
        uncut := by
          rintro i ⟨hle, hlt⟩
          obtain ⟨i, rfl⟩ := Nat.exists_eq_add_of_le hle
          exact (hmoved i).not.mpr (huncut i (by simpa using hlt))
        lt_length := by simpa using hend }
      -- Behind the cut, or the end of the literal, the next segment starts.
      have hnextBefore : Balanced (body.take (start + n + 1)) := by
        rw [Nat.add_assoc, List.take_add]
        exact hbefore.append htake
      have hnextBehind : Balanced (body.drop (start + n + 1)) := by
        rw [Nat.add_assoc, ← List.drop_drop]
        exact htake.of_append (by rwa [List.take_append_drop])
      have hnext : start + n + 1 = 0 ∨ IsCut body (start + n) ∨ body.length < start + n + 1 := by
        rcases hfirst.stops with hlast | hcut
        · exact .inr (.inr (by dsimp only at hlast; omega))
        · exact .inr (.inl hcut)
      obtain ⟨segments, hmem, hsorted, hholds, hreads⟩ :=
        ih (body.length - (start + n + 1)) (by omega) _ hnextBefore hnextBehind hnext rfl
      refine ⟨⟨start, start + n⟩ :: segments, fun s => ?_, ?_, ?_, ?_⟩
      · rw [List.mem_cons, hmem]
        constructor
        · rintro (rfl | ⟨hs, hle⟩)
          · exact ⟨hfirst, Nat.le_refl _⟩
          · exact ⟨hs, by omega⟩
        · rintro ⟨hs, hle⟩
          by_cases heq : s.start = start
          · exact .inl (hs.eq_of_start hfirst heq)
          · refine .inr ⟨hs, ?_⟩
            rcases hs.starts with hzero | hcut
            · omega
            · have hle' := hfirst.stop_le hcut (by simp only; omega)
              simp only at hle'
              omega
      · exact List.pairwise_cons.mpr ⟨fun s hs => ((hmem s).mp hs).2, hsorted⟩
      · intro i hi hle hnot
        by_cases hlt : i < start + n
        · exact ⟨_, List.mem_cons_self, hle, hlt⟩
        · have hne : i ≠ start + n := by
            rintro rfl
            rcases hfirst.stops with hlast | hcut
            · simp only at hlast
              omega
            · exact hnot hcut
          obtain ⟨s, hs, hi'⟩ := hholds i hi (by omega) hnot
          exact ⟨s, List.mem_cons_of_mem _ hs, hi'⟩
      · have hat : body[start]? = some body[start] := List.getElem?_eq_getElem (by omega)
        have hdrop := List.drop_eq_cons hat
        have htokens : (⟨start, start + n⟩ : Segment).tokens body = (body.drop start).take n := by
          rw [Segment.tokens, List.extract_eq_take_drop, Nat.add_sub_cancel_left]
        rw [List.drop_drop, ← Nat.add_assoc] at hcut
        rw [hdrop] at hcut htokens ⊢
        cases n with
        | zero =>
          rw [readEach_of_empty hcut]
          exact .fails (.empty htokens hat)
        | succ n =>
          rw [List.take_succ_cons] at hcut htokens
          rw [readEach_of_cut hcut]
          have hgives (outcome : Except SyntaxError Member) :
              Segment.Gives body ⟨start, start + (n + 1)⟩ outcome ↔
                outcome = readOne body[start] ((body.drop (start + 1)).take n) :=
            Segment.gives_iff_of_cons htokens
          cases hone : readOne body[start] ((body.drop (start + 1)).take n) with
          | error e => exact .fails ((hgives _).mpr hone.symm)
          | ok m => exact .member ((hgives _).mpr hone.symm) hreads

/-- A balanced literal is cut exactly at the commas outside of its groups, so that each token is one
of these or belongs to exactly one segment. The literal is read from its segments, in order: it is
accepted when each of them is a member, and otherwise the error is that of the first one that is
none, which for an empty segment is its comma. -/
theorem ofBody_segments {body : List Token} (hbody : Balanced body) :
    ∃ segments : List Segment,
      (∀ s, s ∈ segments ↔ s.IsIn body) ∧
      segments.Pairwise (fun s s' => s.stop < s'.start) ∧
      (∀ i < body.length, IsCut body i ∧ (∀ s ∈ segments, ¬s.Holds i) ∨
        ¬IsCut body i ∧ ∃! s, s ∈ segments ∧ s.Holds i) ∧
      ((∃ result, ofBody body = .ok result) ↔ ∀ s ∈ segments, ∃ m, s.Gives body (.ok m)) ∧
      (∀ result, ofBody body = .ok result ↔
        ∃ written, List.Forall₂ (fun s m => s.Gives body (.ok m)) segments written ∧
          insertAll written = result) ∧
      (∀ e, ofBody body = .error e ↔ ∃ before s after, segments = before ++ s :: after ∧
        (∀ s' ∈ before, ∃ m, s'.Gives body (.ok m)) ∧ s.Gives body (.error e)) ∧
      Fault.emptyMember.message = "unexpected ','" := by
  obtain ⟨segments, hmem, hsorted, hholds, hreads⟩ :=
    exists_segments 0 .nil hbody (.inl rfl)
  rw [List.drop_zero] at hreads
  have hmem (s : Segment) : s ∈ segments ↔ s.IsIn body := by simp [hmem]
  have hok (result : List Member) : ofBody body = .ok result ↔
      ∃ written, List.Forall₂ (fun s m => s.Gives body (.ok m)) segments written ∧
        insertAll written = result := by
    simp only [ofBody_eq_ok_iff, hreads.eq_ok_iff]
  refine ⟨segments, hmem, hsorted, fun i hi => ?_, ?_, hok, fun e => ?_, rfl⟩
  · by_cases hcut : IsCut body i
    · exact .inl ⟨hcut, fun s hs hi' => ((hmem s).mp hs).uncut i hi' hcut⟩
    · obtain ⟨s, hs, hi'⟩ := hholds i hi (Nat.zero_le _) hcut
      refine .inr ⟨hcut, s, ⟨hs, hi'⟩, ?_⟩
      rintro s' ⟨hs', hi''⟩
      exact ((hmem s').mp hs').eq_of_holds ((hmem s).mp hs) hi'' hi'
  · simp only [hok, ← List.exists_forall₂_iff]
    constructor
    · rintro ⟨_, written, hwritten, _⟩
      exact ⟨written, hwritten⟩
    · rintro ⟨written, hwritten⟩
      exact ⟨_, written, hwritten, rfl⟩
  · rw [← hreads.eq_error_iff, ofBody, readAll_eq, Except.map_eq_error_iff]

/-- Commas inside of a list and of a call do not cut a literal, and its last comma starts no
segment. -/
theorem ofBody_segments_of_nested_commas :
    ∃ (body : List Token) (segments : List Segment) (result : List Member),
      tokenize "a: [1, f(2, 3)], b() \x7b\x7d," = .ok body ∧ Balanced body ∧
      (∀ s, s ∈ segments ↔ s.IsIn body) ∧ ofBody body = .ok result ∧
      result.map (·.key.name) = ["a", "b"] ∧ ∀ s ∈ segments, ∃ m, s.Gives body (.ok m) := by
  let body := (tokenize "a: [1, f(2, 3)], b() \x7b\x7d,").toOption.getD []
  have htokens : tokenize "a: [1, f(2, 3)], b() \x7b\x7d," = .ok body := by decide +kernel
  have hbalanced : Balanced body :=
    balanced_of_closeGroup ⟨.punct, [], 0, ['\x7b']⟩ ⟨.punct, [], 30, ['\x7d']⟩
      (by decide +kernel)
  have hresult : (ofBody body).toOption.map (·.map (·.key.name)) = some ["a", "b"] := by
    decide +kernel
  obtain ⟨result, hread, hnames⟩ := Option.map_eq_some_iff.mp hresult
  have hread := Except.toOption_eq_some_iff.mp hread
  obtain ⟨segments, hmem, _, _, haccepted, _⟩ := ofBody_segments hbalanced
  exact ⟨body, segments, result, htokens, hbalanced, hmem, hread, hnames,
    haccepted.mp ⟨result, hread⟩⟩

end Member

end Reclass
