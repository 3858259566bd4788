import Reclass.Proofs.Handler.IndexReader
import Reclass.Proofs.Handler.Written
import Reclass.Proofs.Script.Matching
import Reclass.Proofs.Script.Quoted
import Reclass.Proofs.Script.Tiling

/-!
# Members read by index

Reading a member by the indices of its tokens gives what reading the tokens one after the other
gives, whatever run of the tokens of a script is taken for the member. So no index is outside of the
tokens, and no text is cut out of the script that is not between the starts and the ends of two of
them.
-/

namespace Reclass

open Script Text

namespace IndexReader

variable {source : List Char} {tokens all rest others : List Token} {t first : Token}
  {index : Nat}

/-- A fault of the reader of tokens as one of the reader by index. -/
def lift {α : Type} (outcome : Except SyntaxError α) : Except Halt α := outcome.mapError .fault

/-- Where tokens start and end. -/
def extents (tokens : List Token) : List Extent := tokens.map .ofToken

/-- That the texts of tokens, and of runs of them, are found in a script where the tokens start and
end, and that strings are quoted. -/
structure Readable (source : List Char) (tokens : List Token) : Prop where
  slice : ∀ {t : Token} {others : List Token}, t :: others <:+: tokens →
    slice? source t.start (Token.lastStop t others) = some (Token.span (t :: others))
  quoted : ∀ t ∈ tokens, t.kind = .str → insideOf t.text = .ok t.inside

/-- The tokens of a script are found in it. -/
theorem readable_of_tokenize {source : String} (h : tokenize source = .ok tokens) :
    Readable source.toList tokens where
  slice := by
    intro t others hrun
    obtain ⟨before, after, hsource, hstart, hstop⟩ := isSlice_span h hrun
    have htail : TailAt source.toList t.start (Token.span (t :: others) ++ after) :=
      ⟨before, hsource, hstart⟩
    rw [← hstop]
    exact htail.slice?_eq
  quoted := by
    intro t ht hkind
    obtain ⟨quote, inside, hquote, htext, -⟩ := exists_quoted_of_mem h ht hkind
    have hsize : quote.utf8Size = 1 := by
      rcases hquote with rfl | rfl <;> rfl
    have hlast : byteLength [quote] = 1 := hsize
    have hbytes : byteLength (quote :: (inside ++ [quote])) = 1 + (byteLength inside + 1) := by
      rw [byteLength, byteLength_append, hsize, hlast]
    have htail : TailAt (quote :: (inside ++ [quote])) 1 (inside ++ [quote]) :=
      ⟨[quote], rfl, hsize⟩
    have hslice := htail.slice?_eq
    have hinside : t.inside = inside := by
      rw [Token.inside, htext]
      simp
    rw [hinside, htext, insideOf, hbytes, if_neg (by omega),
      show 1 + (byteLength inside + 1) - 1 = 1 + byteLength inside by omega, hslice]
    rfl

namespace Readable

/-- The texts of a run of readable tokens are found where they start and end. -/
theorem run (h : Readable source all) (hrun : tokens <:+: all) : Readable source tokens where
  slice := fun hinner => h.slice (hinner.trans hrun)
  quoted := fun t ht => h.quoted t (hrun.subset ht)

/-- Readable tokens are readable from any of them on. -/
theorem drop (h : Readable source tokens) (n : Nat) : Readable source (tokens.drop n) :=
  h.run (List.drop_suffix n tokens).isInfix

/-- Readable tokens are readable behind the first of them. -/
theorem tail (h : Readable source (t :: rest)) : Readable source rest :=
  h.run (List.suffix_cons t rest).isInfix

/-! ### Texts -/

/-- The text of a readable token is cut out as it is. -/
theorem textOf_eq (h : Readable source tokens) (ht : t ∈ tokens) :
    textOf source (.ofToken t) = .ok t.text := by
  obtain ⟨before, after, hsplit⟩ := List.append_of_mem ht
  have hrun : [t] <:+: tokens := ⟨before, after, by rw [hsplit]; simp⟩
  have hslice := h.slice hrun
  rw [Token.span_cons, Token.run_nil, List.append_nil] at hslice
  exact congrArg present hslice

/-- The reader by index sees of which kind a token is, and which text it has. -/
theorem isA_eq (h : Readable source tokens) (ht : t ∈ tokens) (kind : TokenKind) (text : String) :
    isA source kind text (.ofToken t) = .ok (t.kind == kind && t.text == text.toList) := by
  rw [isA, h.textOf_eq ht]
  split
  · next hkind =>
    have hkind : t.kind = kind := hkind
    rw [hkind, beq_self_eq_true, Bool.true_and]
    rfl
  · next hkind =>
    have hkind : ¬t.kind = kind := hkind
    rw [beq_eq_false_iff_ne.mpr hkind, Bool.false_and]

/-- The reader by index sees the signs that the reader of tokens sees. -/
theorem isPunct_eq (h : Readable source tokens) (ht : t ∈ tokens) (text : String) :
    isA source .punct text (.ofToken t) = .ok (t.isPunct text) := h.isA_eq ht .punct text

/-- The reader by index sees the names that the reader of tokens sees. -/
theorem isIdent_eq (h : Readable source tokens) (ht : t ∈ tokens) (text : String) :
    isA source .ident text (.ofToken t) = .ok (t.isIdent text) := h.isA_eq ht .ident text

private theorem pairOf_eq (h : Readable source tokens) (ht : t ∈ tokens)
    (delimiter : Bracket → Char) :
    pairOf source delimiter (.ofToken t) =
      .ok (if t.kind = .punct then Bracket.all.find? fun b => t.text == [delimiter b]
        else none) := by
  rw [pairOf, h.textOf_eq ht]
  change (if t.kind = .punct then _ else _) = _
  split <;> rfl

/-- The reader by index sees which pair a token opens. -/
theorem opens_eq (h : Readable source tokens) (ht : t ∈ tokens) :
    pairOf source Bracket.opener (.ofToken t) = .ok t.opens? := h.pairOf_eq ht Bracket.opener

/-- The reader by index sees which pair a token closes. -/
theorem closes_eq (h : Readable source tokens) (ht : t ∈ tokens) :
    pairOf source Bracket.closer (.ofToken t) = .ok t.closes? := h.pairOf_eq ht Bracket.closer

/-- The text of a run of tokens is cut out of the script. -/
theorem cut_eq (h : Readable source tokens) (hrun : t :: others <:+: tokens) :
    cut source t.start (Token.lastStop t others) = .ok (Token.spanText (t :: others)) := by
  rw [cut, h.slice hrun]
  rfl

/-- The text of some tokens, from the first to the last one, is cut out of the script. -/
theorem cutToEnd_eq (h : Readable source (t :: others)) :
    cut source (Extent.ofToken t).start (Extent.ofToken (others.getLast?.getD t)).stop =
      .ok (Token.spanText (t :: others)) :=
  h.cut_eq (List.infix_refl _)

end Readable

/-! ### Tokens by their indices -/

/-- The extent at an index is that of the token at this index. -/
theorem getElem?_extents (tokens : List Token) (index : Nat) :
    (extents tokens)[index]? = tokens[index]?.map .ofToken := List.getElem?_map

/-- The token at an index is the first one from there on. -/
theorem tokenAt_of_drop (h : all.drop index = t :: rest) :
    tokenAt (extents all) index = .ok (.ofToken t) := by
  rw [tokenAt, getElem?_extents, List.getElem?_of_drop_eq_cons h]
  rfl

/-- A test of the token at an index is one of the first token from there on. -/
theorem testAt_of_drop (test : Extent → Except Halt Bool) (h : all.drop index = t :: rest) :
    testAt test (extents all) index = test (.ofToken t) := by
  rw [testAt, getElem?_extents, List.getElem?_of_drop_eq_cons h]
  rfl

/-- A test of a token behind the last one is not passed. -/
theorem testAt_of_drop_eq_nil (test : Extent → Except Halt Bool) (h : all.drop index = []) :
    testAt test (extents all) index = .ok false := by
  rw [testAt, getElem?_extents, List.getElem?_eq_none (List.drop_eq_nil_iff.mp h)]
  rfl

/-- The last index of some tokens is the number of those behind the first. -/
theorem lastIndex_eq (first : Token) (others : List Token) :
    lastIndex (extents (first :: others)) = .ok others.length := by
  simp [lastIndex, extents]

/-- The last of some tokens is found at their last index. -/
theorem lastOf_eq (first : Token) (others : List Token) :
    lastOf (extents (first :: others)) = .ok (.ofToken (others.getLast?.getD first)) := by
  have hlast : (first :: others)[others.length]? = some (others.getLast?.getD first) := by
    rw [← List.getLast?_cons, List.getLast?_eq_getElem?]
    rfl
  rw [lastOf, lastIndex_eq]
  change tokenAt (extents (first :: others)) others.length = _
  rw [tokenAt, getElem?_extents, hlast]
  rfl

/-- Behind the last token a place is its end. -/
theorem placeAt_eq (first : Token) (others : List Token) (index : Nat) :
    placeAt (extents (first :: others)) index =
      .ok ((((first :: others).drop index).head?.map Token.start).getD
        (Token.lastStop first others)) := by
  rw [placeAt, lastOf_eq, List.head?_drop, getElem?_extents]
  cases (first :: others)[index]? <;> rfl

/-! ### Groups -/

/-- The end of the loop over the groups, as an outcome. -/
private def outcomeOf : LoopEnd → Except Halt Nat
  | .closed index => .ok index
  | .failed e => .error (.fault e)
  | .unexpected t => .error (.unexpected (.ofToken t))

private theorem followOnStack_eq (h : Readable source tokens) (stack : List (Bracket × Nat))
    (index : Nat) :
    followOnStack source stack index (extents tokens) =
      outcomeOf (Script.followOnStack stack index tokens) := by
  induction tokens generalizing stack index with
  | nil => rfl
  | cons t rest ih =>
    have ih := ih h.tail
    change followOnStack source stack index (.ofToken t :: extents rest) = _
    rw [followOnStack, h.opens_eq List.mem_cons_self, h.closes_eq List.mem_cons_self]
    simp only [bind, Except.bind]
    cases hopens : t.opens? with
    | some b =>
      simp only [Script.followOnStack, hopens]
      exact ih _ _
    | none =>
      cases hcloses : t.closes? with
      | none =>
        simp only [Script.followOnStack, hopens, hcloses]
        exact ih _ _
      | some b =>
        cases stack with
        | nil =>
          simp only [Script.followOnStack, hopens, hcloses]
          rfl
        | cons innermost stack =>
          simp only [Script.followOnStack, hopens, hcloses]
          split_ifs
          · rfl
          · rfl
          · exact ih _ _

/-- The delimiter that closes a group is found as among the tokens. -/
theorem matchingIndex_eq (h : Readable source all) (index : Nat) :
    matchingIndex source (extents all) index =
      lift (Script.matchingIndex (byteLength source) all index) := by
  have hstack := matchOnStack_eq (byteLength source) all index
  rw [matchingIndex, getElem?_extents]
  cases hdrop : all.drop index with
  | nil =>
    rw [List.getElem?_eq_none (List.drop_eq_nil_iff.mp hdrop), Script.matchingIndex, hdrop]
    rfl
  | cons t rest =>
    have hget := List.getElem?_of_drop_eq_cons hdrop
    have hlift (outcome : Except SyntaxError Nat) :
        lift outcome = outcomeOf (.ofOutcome outcome) := by
      cases outcome <;> rfl
    have hopens := h.opens_eq (List.mem_of_getElem? hget)
    have hdropped : (extents all).drop index = extents (t :: rest) := by
      rw [extents, ← List.map_drop, hdrop]
      rfl
    rw [hget, hlift, ← hstack, matchOnStack, hdrop, hdropped]
    simp only [Option.map_some, hopens, bind, Except.bind]
    cases t.opens? with
    | none => rfl
    | some b =>
      rw [if_neg (by simp)]
      exact followOnStack_eq (hdrop ▸ h.drop index) [] index

/-- A group that starts at an index: both readers stop at the same fault, or find its end, and the
text of the group is cut out of the script. -/
theorem group_cases (h : Readable source all) (hdrop : all.drop index = t :: rest) :
    (∃ e, closeGroup t rest = .error e ∧
      matchingIndex source (extents all) index = .error (.fault e)) ∨
    ∃ group close, closeGroup t rest = .ok group ∧
      matchingIndex source (extents all) index = .ok close ∧
      all.drop close = group.closer :: group.rest ∧
      cut source t.start group.closer.stop =
        .ok (Token.spanText (t :: (group.inside ++ [group.closer]))) := by
  have hindex : matchingIndex source (extents all) index =
      lift ((closeGroup t rest).map fun group => index + group.inside.length + 1) := by
    rw [matchingIndex_eq h, Script.matchingIndex, hdrop]
  cases hgroup : closeGroup t rest with
  | error e =>
    rw [hgroup] at hindex
    exact .inl ⟨e, rfl, hindex⟩
  | ok group =>
    obtain ⟨hrest, -⟩ := closeGroup_eq_ok hgroup
    rw [hgroup] at hindex
    refine .inr ⟨group, _, rfl, hindex, ?_, ?_⟩
    · change all.drop (index + group.inside.length + 1) = _
      rw [Nat.add_assoc, ← List.drop_drop, hdrop, List.drop_succ_cons, hrest, List.drop_left]
    · have hrun : t :: (group.inside ++ [group.closer]) <:+: all := by
        have hsplit : t :: rest = t :: (group.inside ++ [group.closer]) ++ group.rest := by
          rw [hrest]
          simp
        rw [hsplit] at hdrop
        have hbegins := List.prefix_append (t :: (group.inside ++ [group.closer])) group.rest
        rw [← hdrop] at hbegins
        exact hbegins.isInfix.trans (List.drop_suffix index all).isInfix
      have hstop : Token.lastStop t (group.inside ++ [group.closer]) = group.closer.stop := by
        simp [Token.lastStop]
      have hcut := h.cut_eq hrun
      rwa [hstop] at hcut

/-- A group is the last of some tokens when it is closed at the last index. -/
private theorem eq_length_iff {close : Nat} {last : Token}
    (h : (first :: others).drop close = last :: rest) : close = others.length ↔ rest = [] := by
  have hlength := congrArg List.length h
  simp only [List.length_drop, List.length_cons] at hlength
  rw [← List.length_eq_zero_iff]
  omega

/-! ### Parts of members -/

/-- Two steps after which the same follows come to the same. -/
private theorem bind_eq_lift {α β : Type} {x : Except Halt α} {y : Except SyntaxError α}
    {f : α → Except Halt β} {g : α → Except SyntaxError β} (hx : x = lift y)
    (hf : ∀ a, y = .ok a → f a = lift (g a)) : (x >>= f) = lift (y >>= g) := by
  subst hx
  cases y with
  | error e => rfl
  | ok a => exact hf a rfl

/-- Both readers read the same keys. -/
theorem readKey_eq (h : Readable source tokens) (ht : t ∈ tokens) :
    readKey source (.ofToken t) = lift (Member.readKey t) := by
  have hquoted := h.quoted t ht
  have hofToken : (Extent.ofToken t).kind = t.kind := rfl
  rw [readKey, h.textOf_eq ht, Member.readKey, Token.textValue?, hofToken]
  simp only [bind, Except.bind]
  cases hkind : t.kind with
  | str =>
    rw [hquoted hkind]
    rfl
  | ident | number | template | regex | punct => rfl

/-- A parameter list and a block that start at an index: both readers stop at the same fault, or
read the same texts up to the last brace. The one reader goes on from its index, the other one with
the tokens behind it. -/
theorem signature_cases (h : Readable source (first :: others)) (index : Nat) :
    (∃ e, Member.readSignature (Token.lastStop first others) ((first :: others).drop index) =
        .error e ∧
      readSignature source (extents (first :: others)) index = .error (.fault e)) ∨
    ∃ signature close last,
      Member.readSignature (Token.lastStop first others) ((first :: others).drop index) =
        .ok signature ∧
      readSignature source (extents (first :: others)) index =
        .ok (signature.params, signature.body, close) ∧
      (first :: others).drop close = last :: signature.rest := by
  rw [readSignature, placeAt_eq, Member.readSignature.eq_def]
  cases hdrop : (first :: others).drop index with
  | nil =>
    rw [testAt_of_drop_eq_nil _ hdrop]
    exact .inl ⟨_, rfl, rfl⟩
  | cons p rest =>
    have hp : p ∈ first :: others := List.mem_of_drop_eq_cons hdrop
    rw [testAt_of_drop _ hdrop, h.isPunct_eq hp]
    simp only [bind, Except.bind]
    cases p.isPunct "(" with
    | false => exact .inl ⟨_, rfl, rfl⟩
    | true =>
      obtain ⟨e, hgroup, hindex⟩ | ⟨params, close, hgroup, hindex, hclose, hcut⟩ :=
        group_cases h hdrop
      · simp only [hgroup, hindex]
        exact .inl ⟨_, rfl, rfl⟩
      have hbehind := List.drop_succ_of_drop_eq_cons hclose
      simp only [hgroup, hindex, placeAt_eq, hbehind, tokenAt_of_drop hdrop,
        tokenAt_of_drop hclose]
      cases hrest : params.rest with
      | nil =>
        rw [hrest] at hbehind
        simp only [testAt_of_drop_eq_nil _ hbehind]
        exact .inl ⟨_, rfl, rfl⟩
      | cons b rest =>
        rw [hrest] at hbehind
        have hb : b ∈ first :: others := List.mem_of_drop_eq_cons hbehind
        simp only [testAt_of_drop _ hbehind, h.isPunct_eq hb]
        cases b.isPunct "\x7b" with
        | false => exact .inl ⟨_, rfl, rfl⟩
        | true =>
          obtain ⟨e, hgroup', hindex'⟩ | ⟨body, close', hgroup', hindex', hclose', hcut'⟩ :=
            group_cases h hbehind
          · simp only [hgroup', hindex']
            exact .inl ⟨_, rfl, rfl⟩
          have hparams : cut source (Extent.ofToken p).start (Extent.ofToken params.closer).stop =
              _ := hcut
          have hbody : cut source (Extent.ofToken b).start (Extent.ofToken body.closer).stop =
              _ := hcut'
          simp only [hgroup', hindex', tokenAt_of_drop hclose', tokenAt_of_drop hbehind, hparams,
            hbody]
          exact .inr ⟨_, close', _, rfl, rfl, hclose'⟩

/-- A method without colon is read as from the tokens. -/
theorem readShorthand_eq (h : Readable source (first :: others)) (index : Nat)
    (modifier : Modifier) :
    readShorthand source (extents (first :: others)) index modifier =
      lift (Member.readShorthand first others modifier ((first :: others).drop index)) := by
  rw [readShorthand, getElem?_extents, Member.readShorthand.eq_def]
  cases hdrop : (first :: others).drop index with
  | nil =>
    rw [List.getElem?_eq_none (List.drop_eq_nil_iff.mp hdrop), lastOf_eq]
    rfl
  | cons t rest =>
    have hget := List.getElem?_of_drop_eq_cons hdrop
    rw [hget]
    refine bind_eq_lift (readKey_eq h (List.mem_of_getElem? hget)) fun key _ => ?_
    rw [← List.drop_succ_of_drop_eq_cons hdrop]
    obtain ⟨e, hmodel, hread⟩ | ⟨signature, close, last, hmodel, hread, hclose⟩ :=
      signature_cases h (index + 1)
    · rw [hmodel, hread]
      rfl
    rw [hmodel, hread, lastIndex_eq, lastOf_eq]
    simp only [bind, Except.bind]
    cases hrest : signature.rest with
    | cons extra behind =>
      have hne : close ≠ others.length := fun heq => by
        simp [(eq_length_iff hclose).mp heq] at hrest
      rw [hrest] at hclose
      rw [if_pos hne, tokenAt_of_drop (List.drop_succ_of_drop_eq_cons hclose)]
      rfl
    | nil =>
      rw [if_neg (not_not.mpr ((eq_length_iff hclose).mpr hrest))]
      have hfirst : tokenAt (extents (first :: others)) 0 = .ok (.ofToken first) := rfl
      simp only [hfirst, h.cutToEnd_eq]
      rfl

/-! ### Functions -/

/-- Whether a function starts with `async` is found as from the tokens, and the function goes on
behind it. -/
private theorem isAsyncFunction_eq (h : Readable source (first :: others)) :
    ∃ isAsync f rest, isAsyncFunction source (extents (first :: others)) = .ok isAsync ∧
      Member.dropAsyncFunction (first :: others) = (isAsync, f :: rest) ∧
      (first :: others).drop (if isAsync then 1 else 0) = f :: rest := by
  have hfirst : tokenAt (extents (first :: others)) 0 = .ok (.ofToken first) := rfl
  have hasync := h.isIdent_eq List.mem_cons_self "async"
  rw [isAsyncFunction, hfirst]
  simp only [bind, Except.bind, hasync]
  cases others with
  | nil =>
    refine ⟨false, first, [], ?_, rfl, rfl⟩
    split <;> rfl
  | cons f rest =>
    have hword : testAt (isA source .ident "function") (extents (first :: f :: rest)) 1 =
        .ok (f.isIdent "function") :=
      h.isIdent_eq (List.mem_cons_of_mem _ List.mem_cons_self) "function"
    rw [hword, Member.dropAsyncFunction]
    cases first.isIdent "async" with
    | false => exact ⟨false, first, f :: rest, rfl, rfl, rfl⟩
    | true =>
      cases f.isIdent "function" with
      | false => exact ⟨false, first, f :: rest, rfl, rfl, rfl⟩
      | true => exact ⟨true, f, rest, rfl, rfl, rfl⟩

/-- An optional token is found as from the tokens. -/
private theorem skipAt_eq (test : Extent → Except Halt Bool) (test' : Token → Bool)
    (htest : ∀ t ∈ all, test (.ofToken t) = .ok (test' t)) (index : Nat) :
    ∃ index', skipAt test (extents all) index =
        .ok ((Member.dropIf test' (all.drop index)).1, index') ∧
      (Member.dropIf test' (all.drop index)).2 = all.drop index' := by
  rw [skipAt]
  cases hdrop : all.drop index with
  | nil =>
    refine ⟨index, ?_, hdrop.symm⟩
    rw [testAt_of_drop_eq_nil _ hdrop]
    rfl
  | cons t rest =>
    rw [testAt_of_drop _ hdrop, htest t (List.mem_of_drop_eq_cons hdrop),
      Member.dropIf]
    cases test' t with
    | true => exact ⟨index + 1, rfl, (List.drop_succ_of_drop_eq_cons hdrop).symm⟩
    | false => exact ⟨index, rfl, hdrop.symm⟩

/-- A function is read as from the tokens. -/
theorem readFunction?_eq (h : Readable source (first :: others)) :
    readFunction? source (extents (first :: others)) =
      lift (Member.readFunction? (Token.lastStop first others) (first :: others)) := by
  obtain ⟨isAsync, f, rest, hasync, hmodel, hdrop⟩ := isAsyncFunction_eq h
  have hf := List.mem_of_drop_eq_cons hdrop
  have hfunction : Member.dropIf (·.isIdent "function") (f :: rest) =
      if f.isIdent "function" then (true, rest) else (false, f :: rest) := rfl
  rw [readFunction?, Member.readFunction?, hasync, hmodel]
  simp only [bind, Except.bind, tokenAt_of_drop hdrop, h.isIdent_eq hf, hfunction]
  cases f.isIdent "function" with
  | false => rfl
  | true =>
    obtain ⟨index, hstar, hdrop'⟩ := skipAt_eq (isA source .punct "*") (·.isPunct "*")
      (fun t ht => h.isPunct_eq ht "*") ((if isAsync then 1 else 0) + 1)
    obtain ⟨index', hname, hdrop''⟩ := skipAt_eq (fun t => .ok (t.kind == .ident))
      (·.kind == .ident) (fun t (_ : t ∈ first :: others) => rfl) index
    rw [List.drop_succ_of_drop_eq_cons hdrop] at hstar hdrop'
    rw [← hdrop'] at hname hdrop''
    simp only [hstar, hname, Bool.not_true, Bool.false_eq_true, if_false, if_true, hdrop'']
    obtain ⟨e, hsignature, hread⟩ | ⟨signature, close, last, hsignature, hread, hclose⟩ :=
      signature_cases h index'
    · simp only [hsignature, hread]
      rfl
    simp only [hsignature, hread, lastIndex_eq, ne_eq, eq_length_iff hclose, List.isEmpty_iff]
    split_ifs <;> rfl

/-! ### Arrow functions -/

/-- What is left of some tokens from an index on is a piece of them. -/
theorem part_to_end (hle : index ≤ all.length) :
    part (extents all) index (extents all).length = .ok (extents (all.drop index)) := by
  have hlength : (extents all).length = all.length := List.length_map _
  rw [part, if_pos ⟨by omega, Nat.le_refl _⟩, List.extract_eq_take_drop, List.take_of_length_le
    (by rw [List.length_drop]), extents, ← List.map_drop]
  rfl

private theorem isBlock_eq (h : Readable source (first :: others)) :
    isBlock source (extents (first :: others)) (.ofToken first) =
      lift (if first.isPunct "\x7b" then (closeGroup first others).map (·.rest.isEmpty)
        else pure false) := by
  rw [isBlock, h.isPunct_eq List.mem_cons_self]
  simp only [bind, Except.bind]
  split
  · obtain ⟨e, hgroup, hindex⟩ | ⟨group, close, hgroup, hindex, hclose, -⟩ :=
      group_cases h (List.drop_zero (l := first :: others))
    · rw [hgroup, hindex]
      rfl
    · rw [hgroup, hindex, lastIndex_eq]
      simp only [pure, Except.pure, eq_length_iff hclose]
      change _ = Except.ok group.rest.isEmpty
      cases group.rest <;> rfl
  · rfl

/-- An arrow and its body are read as from the tokens. -/
theorem readArrowBody?_eq (h : Readable source all) (modifier : Modifier) (params : String)
    (index : Nat) :
    readArrowBody? source modifier params (extents all) index =
      lift (Member.readArrowBody? modifier params (all.drop index)) := by
  rw [readArrowBody?]
  cases hdrop : all.drop index with
  | nil =>
    rw [testAt_of_drop_eq_nil _ hdrop]
    rfl
  | cons arrow body =>
    have hget := List.getElem?_of_drop_eq_cons hdrop
    have hbehind := List.drop_succ_of_drop_eq_cons hdrop
    have hle : index + 1 ≤ all.length := (List.getElem?_eq_some_iff.mp hget).1
    have hpart := part_to_end hle
    rw [hbehind] at hpart
    rw [testAt_of_drop _ hdrop, h.isPunct_eq (List.mem_of_getElem? hget),
      Member.readArrowBody?.eq_def]
    simp only [bind, Except.bind]
    cases arrow.isPunct "=>" with
    | false => rfl
    | true =>
      simp only [hpart, tokenAt_of_drop hdrop]
      cases body with
      | nil => rfl
      | cons head rest =>
        have hbody : Readable source (head :: rest) := hbehind ▸ h.drop (index + 1)
        simp only [Bool.not_true, Bool.false_eq_true, if_false, lastOf_eq]
        change (isBlock source (extents (head :: rest)) (.ofToken head) >>= fun block =>
          cut source (Extent.ofToken head).start (Extent.ofToken (rest.getLast?.getD head)).stop >>=
            fun text => pure (some (Method.mk modifier params text !block))) = _
        rw [isBlock_eq hbody, hbody.cutToEnd_eq]
        split
        · cases closeGroup head rest <;> rfl
        · rfl

/-- Whether an arrow function starts with `async` is found as from the tokens, and the parameters
follow. -/
private theorem isAsyncArrow_eq (h : Readable source (first :: others)) :
    ∃ isAsync p rest, isAsyncArrow source (extents (first :: others)) = .ok isAsync ∧
      Member.dropAsync (first :: others) = (isAsync, p :: rest) ∧
      (first :: others).drop (if isAsync then 1 else 0) = p :: rest := by
  have hfirst : tokenAt (extents (first :: others)) 0 = .ok (.ofToken first) := rfl
  have hasync := h.isIdent_eq List.mem_cons_self "async"
  rw [isAsyncArrow, hfirst]
  simp only [bind, Except.bind, hasync]
  obtain _ | ⟨b, _ | ⟨c, rest⟩⟩ := others
  · exact ⟨false, first, [], by simp [extents, pure, Except.pure], rfl, rfl⟩
  · exact ⟨false, first, [b], by simp [extents, pure, Except.pure], rfl, rfl⟩
  · rw [Member.dropAsync]
    cases first.isIdent "async" with
    | false => exact ⟨false, first, b :: c :: rest, rfl, rfl, rfl⟩
    | true => exact ⟨true, b, c :: rest, by simp [extents, pure, Except.pure], rfl, rfl⟩

/-- An arrow function is read as from the tokens. -/
theorem readArrow?_eq (h : Readable source (first :: others)) :
    readArrow? source (extents (first :: others)) = lift (Member.readArrow? (first :: others)) := by
  obtain ⟨isAsync, p, rest, hasync, hmodel, hdrop⟩ := isAsyncArrow_eq h
  have hp := List.mem_of_drop_eq_cons hdrop
  rw [readArrow?, Member.readArrow?, hasync, hmodel]
  simp only [bind, Except.bind, tokenAt_of_drop hdrop, h.isPunct_eq hp, h.textOf_eq hp]
  cases p.isPunct "(" with
  | true =>
    obtain ⟨e, hgroup, hindex⟩ | ⟨group, close, hgroup, hindex, hclose, hcut⟩ :=
      group_cases h hdrop
    · simp only [hgroup, hindex]
      rfl
    have hparams : cut source (Extent.ofToken p).start (Extent.ofToken group.closer).stop =
        _ := hcut
    simp only [hgroup, hindex, tokenAt_of_drop hclose, hparams, if_true]
    rw [readArrowBody?_eq h, List.drop_succ_of_drop_eq_cons hclose]
    rfl
  | false =>
    simp only [Bool.false_eq_true, if_false]
    change (if p.kind = .ident then _ else _) = _
    split
    · rw [readArrowBody?_eq h, List.drop_succ_of_drop_eq_cons hdrop]
      rfl
    · rfl

/-! ### Members -/

/-- A method that is a value is read as from the tokens. -/
theorem readMethod?_eq (h : Readable source (first :: others)) :
    readMethod? source (extents (first :: others)) =
      lift (Member.readMethod? (Token.lastStop first others) (first :: others)) := by
  refine bind_eq_lift (readFunction?_eq h) fun function? _ => ?_
  cases function? with
  | some function => rfl
  | none => exact readArrow?_eq h

/-- A member that starts with its key is read as from the tokens. -/
theorem readPlain_eq (h : Readable source (first :: others)) :
    readPlain source (extents (first :: others)) (.ofToken first) =
      lift (Member.readPlain first others) := by
  refine bind_eq_lift (readKey_eq h List.mem_cons_self) fun key _ => ?_
  cases others with
  | nil =>
    change (if key.form = .ident then _ else _) = lift (if key.form = .ident then _ else _)
    split <;> rfl
  | cons t value =>
    have ht : t ∈ first :: t :: value := List.mem_cons_of_mem _ List.mem_cons_self
    have hpart : part (extents (first :: t :: value)) 2 (extents (first :: t :: value)).length =
        .ok (extents value) := part_to_end (by simp)
    change (isA source .punct ":" (.ofToken t) >>= _) = _
    rw [h.isPunct_eq ht]
    simp only [bind, Except.bind]
    cases t.isPunct ":" with
    | true =>
      simp only [hpart, if_true]
      cases value with
      | nil => rfl
      | cons head rest =>
        have hvalue : Readable source (head :: rest) := h.tail.tail
        have hstop : Token.lastStop t (head :: rest) = Token.lastStop head rest := by
          rw [Token.lastStop, List.getLast?_cons]
          rfl
        rw [hstop]
        change (readMethod? source (extents (head :: rest)) >>= _) = lift (_ >>= _)
        refine bind_eq_lift (readMethod?_eq hvalue) fun method _ => ?_
        rw [lastOf_eq]
        change (cut source (Extent.ofToken head).start
          (Extent.ofToken (rest.getLast?.getD head)).stop >>= _) = _
        rw [hvalue.cutToEnd_eq]
        rfl
    | false =>
      simp only [h.isPunct_eq ht, h.textOf_eq ht, Bool.false_eq_true, if_false]
      cases t.isPunct "(" with
      | true => exact readShorthand_eq h 0 .plain
      | false => rfl

/-- The modifier before a key is found as from the tokens. -/
private theorem modifierAt_eq (h : Readable source (first :: others)) :
    modifierAt source (extents (first :: others)) (.ofToken first) =
      .ok (if 1 < others.length ∧ others.head?.any Member.isKeyToken then
        Member.modifierOf? first else none) := by
  rw [modifierAt, h.textOf_eq List.mem_cons_self]
  obtain _ | ⟨second, _ | ⟨third, rest⟩⟩ := others
  · rw [if_neg (by simp [extents])]
    rfl
  · rw [if_neg (by simp [extents])]
    rfl
  · have hsecond : tokenAt (extents (first :: second :: third :: rest)) 1 =
        .ok (.ofToken second) := rfl
    have hkey : (second.kind = .ident ∨ second.kind = .str ∨ second.kind = .number) ↔
        Member.isKeyToken second := by simp [Member.isKeyToken, or_assoc]
    have hlong : 2 < (extents (first :: second :: third :: rest)).length := by simp [extents]
    have hlong' : 1 < (second :: third :: rest).length := by simp
    simp only [hsecond, bind, Except.bind, hlong, hlong', and_true, true_and]
    change (if first.kind = .ident then
      if second.kind = .ident ∨ second.kind = .str ∨ second.kind = .number then _ else _
      else _) = Except.ok (if Member.isKeyToken second then _ else _)
    simp only [hkey, Member.modifierOf?, Token.isIdent]
    by_cases hkind : first.kind = .ident
    · simp only [hkind, if_true, beq_self_eq_true, Bool.true_and, beq_iff_eq]
      split_ifs <;> rfl
    · simp [hkind, pure, Except.pure]

private theorem isAsyncGenerator_eq (h : Readable source (first :: others)) :
    isAsyncGenerator source (extents (first :: others)) (.ofToken first) =
      .ok (first.isIdent "async" && others.head?.any (·.isPunct "*")) := by
  rw [isAsyncGenerator, h.isIdent_eq List.mem_cons_self]
  simp only [bind, Except.bind]
  cases first.isIdent "async" with
  | false => rfl
  | true =>
    cases others with
    | nil => rfl
    | cons second rest => exact h.isPunct_eq (List.mem_cons_of_mem _ List.mem_cons_self) "*"

private theorem readUnmodified_eq (h : Readable source (first :: others)) (condition : Bool) :
    (if condition then readShorthand source (extents (first :: others)) 2 .asyncGenerator
      else readPlain source (extents (first :: others)) (.ofToken first)) =
    lift (if condition then
        Member.readShorthand first others .asyncGenerator ((first :: others).drop 2)
      else Member.readPlain first others) := by
  cases condition with
  | true => exact readShorthand_eq h 2 .asyncGenerator
  | false => exact readPlain_eq h

/-- A member is read as from the tokens. -/
theorem read_eq (h : Readable source (first :: others)) :
    read source (extents (first :: others)) = lift (Member.read first others) := by
  have hfirst : tokenAt (extents (first :: others)) 0 = .ok (.ofToken first) := rfl
  have hpunct := h.isPunct_eq (t := first) List.mem_cons_self
  rw [read, Member.read.eq_def, hfirst]
  simp only [bind, Except.bind, hpunct, modifierAt_eq h, isAsyncGenerator_eq h]
  split
  · rfl
  split
  · rfl
  split
  · exact readShorthand_eq h 1 .generator
  obtain _ | ⟨second, _ | ⟨third, rest⟩⟩ := others
  · rw [if_neg (by simp)]
    simp only [List.head?_nil, Option.any_none, Bool.and_false]
    exact readUnmodified_eq h false
  · rw [if_neg (by simp)]
    exact readUnmodified_eq h _
  · have hlong : 1 < (second :: third :: rest).length := by simp
    simp only [hlong, true_and, List.head?_cons, Option.any_some]
    cases Member.isKeyToken second with
    | true =>
      cases Member.modifierOf? first with
      | some modifier => exact readShorthand_eq h 1 modifier
      | none => exact readUnmodified_eq h _
    | false => cases Member.modifierOf? first <;> exact readUnmodified_eq h _

end IndexReader

end Reclass
