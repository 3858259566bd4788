import Reclass.Script.Group
import Reclass.Proofs.Outcome

/-!
# Groups as runs of tokens

A group that has been closed is a run of the tokens it was read from: the delimiters at its two ends
belong to one pair, and what stands between them is balanced. A reader that keeps a stack of open
groups finds exactly the groups that this describes.
-/

namespace Reclass

namespace Token

/-- The token that closes a pair is its closing delimiter. -/
theorem closes?_eq_some_iff {t : Token} {b : Bracket} :
    t.closes? = some b ↔ t.kind = .punct ∧ t.text = [b.closer] := by
  rw [closes?]
  constructor
  · intro h
    split at h
    · next hkind =>
      have hfound := List.find?_some h
      exact ⟨hkind, by simpa using hfound⟩
    · exact absurd h (by simp)
  · rintro ⟨hkind, htext⟩
    rw [if_pos hkind, htext]
    cases b <;> decide

/-- The token that opens a pair is its opening delimiter. -/
theorem opens?_eq_some_iff {t : Token} {b : Bracket} :
    t.opens? = some b ↔ t.kind = .punct ∧ t.text = [b.opener] := by
  rw [opens?]
  constructor
  · intro h
    split at h
    · next hkind =>
      have hfound := List.find?_some h
      exact ⟨hkind, by simpa using hfound⟩
    · exact absurd h (by simp)
  · rintro ⟨hkind, htext⟩
    rw [if_pos hkind, htext]
    cases b <;> decide

/-- A token is a sign by its kind and its text. -/
theorem isPunct_iff {t : Token} {text : String} :
    t.isPunct text = true ↔ t.kind = .punct ∧ t.text = text.toList := by
  simp [isPunct]

/-- A token is a name by its kind and its text. -/
theorem isIdent_iff {t : Token} {text : String} :
    t.isIdent text = true ↔ t.kind = .ident ∧ t.text = text.toList := by
  simp [isIdent]

end Token

namespace Script

/-- That in some tokens every group is closed by the delimiter of its own pair, and before the group
around it is. -/
inductive Balanced : List Token → Prop
  | nil : Balanced []
  /-- A token that is no delimiter. -/
  | plain {t : Token} {rest : List Token} (hopens : t.opens? = none) (hcloses : t.closes? = none)
      (hrest : Balanced rest) : Balanced (t :: rest)
  /-- A group, and what follows it. -/
  | group {opener closer : Token} {b : Bracket} {inside rest : List Token}
      (hopens : opener.opens? = some b) (hcloses : closer.closes? = some b)
      (hinside : Balanced inside) (hrest : Balanced rest) :
      Balanced (opener :: (inside ++ closer :: rest))

/-- That some tokens close the groups that are open before them, the innermost first, and are
balanced otherwise. -/
inductive ClosesAll : List Bracket → List Token → Prop
  | nil {tokens : List Token} (h : Balanced tokens) : ClosesAll [] tokens
  | cons {b : Bracket} {pending : List Bracket} {inside rest : List Token} {closer : Token}
      (hinside : Balanced inside) (hcloses : closer.closes? = some b)
      (hrest : ClosesAll pending rest) : ClosesAll (b :: pending) (inside ++ closer :: rest)

namespace ClosesAll

variable {pending : List Bracket} {tokens : List Token} {t : Token}

/-- A token that is no delimiter in front. -/
theorem plain (hopens : t.opens? = none) (hcloses : t.closes? = none)
    (h : ClosesAll pending tokens) : ClosesAll pending (t :: tokens) := by
  cases h with
  | nil h => exact .nil (.plain hopens hcloses h)
  | cons hinside hcloser hrest => exact .cons (.plain hopens hcloses hinside) hcloser hrest

/-- An opening delimiter in front of tokens that close its group first. -/
theorem opened {b : Bracket} (hopens : t.opens? = some b) (h : ClosesAll (b :: pending) tokens) :
    ClosesAll pending (t :: tokens) := by
  cases h with
  | cons hinside hcloser hrest =>
    cases hrest with
    | nil hrest => exact .nil (.group hopens hcloser hinside hrest)
    | @cons _ _ inside' rest' closer' hinside' hcloser' hrest' =>
      have h := ClosesAll.cons (.group hopens hcloser hinside hinside') hcloser' hrest'
      simpa using h

end ClosesAll

/-- What is read up to the end of a group closes the groups that were open inside of it. -/
private theorem closesAll_of_closeInside {opener : Bracket × Nat} {pending : List (Bracket × Nat)}
    {tokens : List Token} {group : Closed} (h : closeInside opener pending tokens = .ok group) :
    tokens = group.inside ++ group.closer :: group.rest ∧
      group.closer.closes? = some opener.1 ∧ ClosesAll (pending.map Prod.fst) group.inside := by
  fun_induction closeInside opener pending tokens generalizing group with
  | case1 => exact absurd h (by simp)
  | case2 pending t rest b hopens ih =>
    obtain ⟨inner, hinner, rfl⟩ := Except.map_eq_ok_iff.mp h
    obtain ⟨htokens, hcloses, hinside⟩ := ih hinner
    exact ⟨by rw [htokens]; rfl, hcloses, hinside.opened hopens⟩
  | case3 t rest hopens pending hcloses ih =>
    obtain ⟨inner, hinner, rfl⟩ := Except.map_eq_ok_iff.mp h
    obtain ⟨htokens, hcloser, hinside⟩ := ih hinner
    exact ⟨by rw [htokens]; rfl, hcloser, hinside.plain hopens hcloses⟩
  | case4 t rest hopens hcloses =>
    cases h
    exact ⟨rfl, hcloses, .nil .nil⟩
  | case5 => exact absurd h (by simp)
  | case6 t rest hopens inner pending hcloses ih =>
    obtain ⟨group', hinner, rfl⟩ := Except.map_eq_ok_iff.mp h
    obtain ⟨htokens, hcloser, hinside⟩ := ih hinner
    have hclosed : ClosesAll (inner.1 :: pending.map Prod.fst) ([] ++ t :: group'.inside) :=
      .cons .nil hcloses hinside
    exact ⟨by rw [htokens]; rfl, hcloser, hclosed⟩
  | case7 => exact absurd h (by simp)

/-- No token both opens and closes a group. -/
theorem opens?_eq_none_of_closes? {t : Token} {b : Bracket} (h : t.closes? = some b) :
    t.opens? = none := by
  obtain ⟨_, htext⟩ := Token.closes?_eq_some_iff.mp h
  rw [Option.eq_none_iff_forall_ne_some]
  intro b' hopens
  obtain ⟨_, htext'⟩ := Token.opens?_eq_some_iff.mp hopens
  rw [htext] at htext'
  cases b <;> cases b' <;> exact absurd htext' (by decide)

/-- Balanced tokens are read over, whatever groups are open. -/
theorem closeInside_balanced {opener : Bracket × Nat} {inside : List Token}
    (hinside : Balanced inside) (pending : List (Bracket × Nat)) (rest : List Token) :
    closeInside opener pending (inside ++ rest) =
      (closeInside opener pending rest).map fun group =>
        { group with inside := inside ++ group.inside } := by
  induction hinside generalizing pending rest with
  | nil =>
    rw [List.nil_append]
    cases closeInside opener pending rest <;> rfl
  | plain hopens hcloses _ ih =>
    simp only [List.cons_append, closeInside, hopens, hcloses, ih]
    cases closeInside opener pending rest <;> rfl
  | @group first closer b _ rest' hopens hcloses _ _ ihInside ihRest =>
    simp only [List.cons_append, List.append_assoc, closeInside, hopens, ihInside,
      opens?_eq_none_of_closes? hcloses, hcloses, if_true, ihRest]
    cases closeInside opener pending rest <;> simp [Except.map, Closed.cons]

/-- A group is read exactly when what stands inside of it is balanced, and both its delimiters
belong to one pair. -/
theorem closeGroup_eq_ok_iff {t : Token} {tokens : List Token} {group : Closed} :
    closeGroup t tokens = .ok group ↔
      tokens = group.inside ++ group.closer :: group.rest ∧ Balanced group.inside ∧
        ∃ b, t.opens? = some b ∧ group.closer.closes? = some b := by
  rw [closeGroup]
  constructor
  · intro h
    split at h
    · exact absurd h (by simp)
    · next b hopens =>
      obtain ⟨htokens, hcloses, hinside⟩ := closesAll_of_closeInside h
      cases hinside with
      | nil hinside => exact ⟨htokens, hinside, b, hopens, hcloses⟩
  · rintro ⟨htokens, hinside, b, hopens, hcloses⟩
    have hcloser : closeInside (b, t.start) [] (group.closer :: group.rest) =
        .ok ⟨[], group.closer, group.rest⟩ := by
      simp only [closeInside, opens?_eq_none_of_closes? hcloses, hcloses, if_true]
    rw [hopens, htokens]
    simp only [closeInside_balanced hinside, hcloser, Except.map, List.append_nil]

/-- The group that a token opens ends at the same token, whatever follows it. -/
theorem closeGroup_again {t : Token} {rest : List Token} {group : Closed}
    (h : closeGroup t rest = .ok group) (rest' : List Token) :
    closeGroup t (group.inside ++ group.closer :: rest') =
      .ok ⟨group.inside, group.closer, rest'⟩ :=
  closeGroup_eq_ok_iff.mpr ⟨rfl, (closeGroup_eq_ok_iff.mp h).2⟩

/-- The group that a token opens, and what follows it, are the tokens behind that token. -/
theorem closeGroup_eq_ok {t : Token} {rest : List Token} {group : Closed}
    (h : closeGroup t rest = .ok group) :
    rest = group.inside ++ group.closer :: group.rest ∧
      ∃ b, t.opens? = some b ∧ group.closer.closes? = some b := by
  obtain ⟨hrest, _, hpair⟩ := closeGroup_eq_ok_iff.mp h
  exact ⟨hrest, hpair⟩

/-! ### Balanced tokens in front of others -/

/-- Balanced tokens behind balanced tokens are balanced. -/
theorem Balanced.append {u v : List Token} (hu : Balanced u) (hv : Balanced v) :
    Balanced (u ++ v) := by
  induction hu with
  | nil => exact hv
  | plain hopens hcloses _ ih => exact .plain hopens hcloses ih
  | group hopens hcloses hinside _ _ ih =>
    rw [List.cons_append, List.append_assoc]
    exact .group hopens hcloses hinside ih

/-- Behind a token that is no delimiter, balanced tokens are balanced too. -/
theorem Balanced.of_plain {t : Token} {rest : List Token} (h : Balanced (t :: rest))
    (hopens : t.opens? = none) : Balanced rest := by
  cases h with
  | plain _ _ hrest => exact hrest
  | group hopens' => exact absurd hopens' (by simp [hopens])

/-- A group that opens at the start of balanced tokens is closed, and what is behind it is balanced
too. -/
theorem Balanced.exists_closeGroup {t : Token} {rest : List Token} {b : Bracket}
    (h : Balanced (t :: rest)) (hopens : t.opens? = some b) :
    ∃ group, closeGroup t rest = .ok group ∧ Balanced group.rest := by
  cases h with
  | plain hopens' => exact absurd hopens (by simp [hopens'])
  | @group _ closer b' inside rest' hopens' hcloses hinside hrest =>
    exact ⟨⟨inside, closer, rest'⟩,
      closeGroup_eq_ok_iff.mpr ⟨rfl, hinside, b', hopens', hcloses⟩, hrest⟩

/-- What follows balanced tokens at the start of others is as balanced as these are. -/
theorem Balanced.of_append {u v : List Token} (hu : Balanced u) (h : Balanced (u ++ v)) :
    Balanced v := by
  induction hu with
  | nil => exact h
  | plain hopens _ _ ih => exact ih (h.of_plain hopens)
  | @group opener closer b inside rest hopens hcloses hinside _ _ ih =>
    rw [List.cons_append, List.append_assoc] at h
    obtain ⟨group, hgroup, hrest⟩ := h.exists_closeGroup hopens
    have hclosed : closeGroup opener (inside ++ closer :: (rest ++ v)) =
        .ok ⟨inside, closer, rest ++ v⟩ :=
      closeGroup_eq_ok_iff.mpr ⟨rfl, hinside, b, hopens, hcloses⟩
    rw [List.cons_append, hclosed] at hgroup
    cases hgroup
    exact ih hrest

/-- What a group that has been closed holds is balanced. -/
theorem balanced_of_closeGroup (opener closer : Token) {inside : List Token}
    (h : closeGroup opener (inside ++ [closer]) = .ok ⟨inside, closer, []⟩) : Balanced inside :=
  (closeGroup_eq_ok_iff.mp h).2.1

/-! ### Tokens that are no delimiters -/

/-- No name opens or closes a group. -/
theorem not_delimiter_of_ident {t : Token} (h : t.kind = .ident) :
    t.opens? = none ∧ t.closes? = none := by
  simp [Token.opens?, Token.closes?, h]

/-- A sign that is none of the delimiters neither opens nor closes a group. -/
theorem not_delimiter_of_isPunct {t : Token} {text : String} (h : t.isPunct text)
    (htext : ∀ b : Bracket, text.toList ≠ [b.opener] ∧ text.toList ≠ [b.closer]) :
    t.opens? = none ∧ t.closes? = none := by
  obtain ⟨_, heq⟩ := Token.isPunct_iff.mp h
  constructor
  · rw [Option.eq_none_iff_forall_ne_some]
    exact fun b hopens => (htext b).1 (heq.symm.trans (Token.opens?_eq_some_iff.mp hopens).2)
  · rw [Option.eq_none_iff_forall_ne_some]
    exact fun b hcloses => (htext b).2 (heq.symm.trans (Token.closes?_eq_some_iff.mp hcloses).2)

/-- Tokens without delimiters are balanced. -/
theorem balanced_of_forall {tokens : List Token}
    (h : ∀ t ∈ tokens, t.opens? = none ∧ t.closes? = none) : Balanced tokens := by
  induction tokens with
  | nil => exact .nil
  | cons t rest ih =>
    obtain ⟨ht, hrest⟩ := List.forall_mem_cons.mp h
    exact .plain ht.1 ht.2 (ih hrest)

/-! ### Whole groups -/

/-- That some tokens are one group of a pair: its two delimiters, and balanced tokens between
them. -/
def IsGroupOf (b : Bracket) (tokens : List Token) : Prop :=
  ∃ opener inside closer, tokens = opener :: (inside ++ [closer]) ∧ opener.opens? = some b ∧
    closer.closes? = some b ∧ Balanced inside

namespace IsGroupOf

variable {b : Bracket} {tokens : List Token}

/-- A group as a whole is balanced. -/
theorem balanced (h : IsGroupOf b tokens) : Balanced tokens := by
  obtain ⟨opener, inside, closer, rfl, hopens, hcloses, hinside⟩ := h
  exact .group hopens hcloses hinside .nil

/-- A group is closed, whatever follows. -/
theorem closeGroup_eq (h : IsGroupOf b tokens) :
    ∃ opener inside closer, tokens = opener :: (inside ++ [closer]) ∧ opener.opens? = some b ∧
      ∀ rest, closeGroup opener (inside ++ closer :: rest) = .ok ⟨inside, closer, rest⟩ := by
  obtain ⟨opener, inside, closer, rfl, hopens, hcloses, hinside⟩ := h
  exact ⟨opener, inside, closer, rfl, hopens,
    fun rest => closeGroup_eq_ok_iff.mpr ⟨rfl, hinside, b, hopens, hcloses⟩⟩

/-- The tokens of a group that has been closed, and what is behind them. -/
theorem of_closeGroup {t : Token} {rest : List Token} {group : Closed} (hopens : t.opens? = some b)
    (h : closeGroup t rest = .ok group) :
    IsGroupOf b (t :: (group.inside ++ [group.closer])) ∧
      t :: rest = t :: (group.inside ++ [group.closer]) ++ group.rest := by
  obtain ⟨hrest, hinside, b', hopens', hcloses⟩ := closeGroup_eq_ok_iff.mp h
  cases hopens.symm.trans hopens'
  exact ⟨⟨t, group.inside, group.closer, rfl, hopens, hcloses, hinside⟩, by simp [hrest]⟩

end IsGroupOf

/-- Balanced tokens that start with an opening delimiter start with a group. -/
theorem Balanced.exists_group {t : Token} {rest : List Token} {b : Bracket}
    (h : Balanced (t :: rest)) (hopens : t.opens? = some b) :
    ∃ group after, t :: rest = group ++ after ∧ IsGroupOf b group := by
  obtain ⟨group, hgroup, _⟩ := h.exists_closeGroup hopens
  obtain ⟨hisGroup, hsplit⟩ := IsGroupOf.of_closeGroup hopens hgroup
  exact ⟨_, group.rest, hsplit, hisGroup⟩

end Script

end Reclass
