import Reclass.Proofs.Handler.Replacement
import Reclass.Proofs.Script.Shift

/-!
# Members at another place

A property literal that stands further on in a source has the same members. Only their places move,
and the place of a fault that is found in it.
-/

namespace Reclass

open Script

namespace Member

/-- A member that stands `n` bytes further on. -/
def shift (n : Nat) (m : Member) : Member := { m with offset := m.offset + n }

/-- A parameter list and a block, of which the tokens behind them stand `n` bytes further on. -/
def Signature.shift (n : Nat) (signature : Signature) : Signature :=
  { signature with rest := signature.rest.map (Token.shift n) }

variable (n : Nat)

/-! ### Parts of a member -/

/-- A key further on in the text is the same key. -/
theorem readKey_shift (t : Token) : readKey (t.shift n) = shiftRead n id (readKey t) := by
  rw [readKey, readKey, Token.shift_kind]
  split <;> rfl

/-- A signature further on in the text is the same signature. -/
theorem readSignature_shift (stop : Nat) (tokens : List Token) :
    readSignature (stop + n) (tokens.map (Token.shift n)) =
      shiftRead n (Signature.shift n) (readSignature stop tokens) := by
  cases tokens with
  | nil => rfl
  | cons p rest =>
    rw [List.map_cons, readSignature, readSignature, Token.shift_isPunct]
    split
    · rfl
    · rw [closeGroup_shift]
      refine shiftRead_bind fun params _ => ?_
      simp only [Closed.shift_rest, span_group_shift]
      cases params.rest with
      | nil => rfl
      | cons b rest =>
        simp only [List.map_cons, Token.shift_isPunct]
        split
        · rfl
        · rw [closeGroup_shift]
          refine shiftRead_bind fun body _ => ?_
          rw [span_group_shift]
          rfl

/-- The word before a function is taken off further on as well. -/
theorem dropAsyncFunction_shift (value : List Token) :
    dropAsyncFunction (value.map (Token.shift n)) =
      ((dropAsyncFunction value).1, (dropAsyncFunction value).2.map (Token.shift n)) := by
  match value with
  | [] => rfl
  | [_] => rfl
  | a :: f :: rest =>
    simp only [List.map_cons, dropAsyncFunction, Token.shift_isIdent]
    split <;> rfl

/-- The word before an arrow is taken off further on as well. -/
theorem dropAsync_shift (value : List Token) :
    dropAsync (value.map (Token.shift n)) =
      ((dropAsync value).1, (dropAsync value).2.map (Token.shift n)) := by
  match value with
  | [] => rfl
  | [_] => rfl
  | [_, _] => rfl
  | a :: b :: c :: rest =>
    simp only [List.map_cons, dropAsync, Token.shift_isIdent]
    split <;> rfl

/-- A test that does not look at places takes off the same token further on. -/
theorem dropIf_shift (test : Token → Bool) (htest : ∀ t : Token, test (t.shift n) = test t)
    (tokens : List Token) :
    dropIf test (tokens.map (Token.shift n)) =
      ((dropIf test tokens).1, (dropIf test tokens).2.map (Token.shift n)) := by
  cases tokens with
  | nil => rfl
  | cons t rest =>
    rw [List.map_cons, dropIf, dropIf, htest]
    split <;> rfl

/-- A literal further on is cut at the same comma. -/
theorem cutAtComma_shift (depth : Nat) (tokens : List Token) :
    cutAtComma depth (tokens.map (Token.shift n)) =
      ((cutAtComma depth tokens).1.map (Token.shift n),
        (cutAtComma depth tokens).2.map (Token.shift n)) := by
  induction tokens generalizing depth with
  | nil => rfl
  | cons t rest ih =>
    rw [List.map_cons, cutAtComma, cutAtComma]
    simp only [Token.shift_isPunct, Token.shift_opens?, Token.shift_closes?, ih]
    split <;> rfl

/-! ### Methods -/

/-- A method further on in the text is the same method. -/
theorem readShorthand_shift (first : Token) (others : List Token) (modifier : Modifier)
    (tokens : List Token) :
    readShorthand (first.shift n) (others.map (Token.shift n)) modifier
        (tokens.map (Token.shift n)) =
      shiftRead n (shift n) (readShorthand first others modifier tokens) := by
  cases tokens with
  | nil =>
    have hstop := Token.lastStop_shift n first others
    simp only [List.map_nil, readShorthand, hstop]
    rfl
  | cons t rest =>
    simp only [List.map_cons, readShorthand, readKey_shift, Token.lastStop_shift]
    refine shiftRead_bind fun key _ => ?_
    rw [readSignature_shift]
    refine shiftRead_bind fun signature _ => ?_
    obtain ⟨params, body, after⟩ := signature
    cases after with
    | nil =>
      have htext := Token.span_map_shift n (first :: others)
      rw [List.map_cons] at htext
      simp only [Signature.shift, List.map_nil, htext]
      rfl
    | cons extra rest => rfl

/-- A function further on in the text is the same function. -/
theorem readFunction?_shift (stop : Nat) (value : List Token) :
    readFunction? (stop + n) (value.map (Token.shift n)) =
      shiftRead n id (readFunction? stop value) := by
  have hfunction := dropIf_shift n (·.isIdent "function") fun t => t.shift_isIdent n _
  have hstar := dropIf_shift n (·.isPunct "*") fun t => t.shift_isPunct n _
  have hname := dropIf_shift n (·.kind == .ident) fun _ => rfl
  simp only [readFunction?, dropAsyncFunction_shift, hfunction, hstar, hname]
  split
  · rfl
  · rw [readSignature_shift]
    refine shiftRead_bind fun signature _ => ?_
    have hrest : (signature.shift n).rest.isEmpty = signature.rest.isEmpty := List.isEmpty_map
    rw [hrest]
    split <;> rfl

/-- The body of an arrow further on in the text is the same body. -/
theorem readArrowBody?_shift (modifier : Modifier) (params : String) (tokens : List Token) :
    readArrowBody? modifier params (tokens.map (Token.shift n)) =
      shiftRead n id (readArrowBody? modifier params tokens) := by
  match tokens with
  | [] => rfl
  | [arrow] =>
    simp only [List.map_cons, List.map_nil, readArrowBody?, Token.shift_isPunct, Token.shift_stop]
    split <;> rfl
  | arrow :: head :: rest =>
    have hbody := Token.span_map_shift n (head :: rest)
    rw [List.map_cons] at hbody
    simp only [List.map_cons, readArrowBody?, Token.shift_isPunct, hbody, closeGroup_shift]
    split
    · rfl
    · split
      · have hblock : (shiftRead n (Closed.shift n) (closeGroup head rest)).map (·.rest.isEmpty) =
            shiftRead n id ((closeGroup head rest).map (·.rest.isEmpty)) :=
          shiftRead_map fun _ => List.isEmpty_map
        rw [hblock]
        exact shiftRead_bind fun _ _ => rfl
      · rfl

/-- An arrow function further on in the text is the same function. -/
theorem readArrow?_shift (value : List Token) :
    readArrow? (value.map (Token.shift n)) = shiftRead n id (readArrow? value) := by
  simp only [readArrow?, dropAsync_shift]
  cases (dropAsync value).2 with
  | nil => rfl
  | cons p rest =>
    simp only [List.map_cons, Token.shift_isPunct, Token.shift_kind, Token.shift_word,
      readArrowBody?_shift]
    split
    · rw [closeGroup_shift]
      refine shiftRead_bind fun params _ => ?_
      rw [span_group_shift, Closed.shift_rest, readArrowBody?_shift]
    · split <;> rfl

/-- A method value further on in the text is the same method. -/
theorem readMethod?_shift (stop : Nat) (value : List Token) :
    readMethod? (stop + n) (value.map (Token.shift n)) =
      shiftRead n id (readMethod? stop value) := by
  rw [readMethod?, readMethod?, readFunction?_shift]
  refine shiftRead_bind fun method? _ => ?_
  cases method? with
  | none => exact readArrow?_shift n value
  | some method => rfl

/-! ### Members -/

/-- A member that starts with its key is read further on as it is here. -/
theorem readPlain_shift (first : Token) (others : List Token) :
    readPlain (first.shift n) (others.map (Token.shift n)) =
      shiftRead n (shift n) (readPlain first others) := by
  rw [readPlain, readPlain, readKey_shift]
  refine shiftRead_bind fun key _ => ?_
  cases others with
  | nil =>
    simp only [List.map_nil, Token.shift_stop, id_eq]
    split <;> rfl
  | cons t value =>
    have hshorthand := readShorthand_shift n first (t :: value) .plain (first :: t :: value)
    simp only [List.map_cons] at hshorthand
    simp only [List.map_cons, Token.shift_isPunct, List.isEmpty_map, Token.lastStop_shift,
      Token.span_map_shift, Token.shift_stop, readMethod?_shift, hshorthand]
    split
    · split
      · rfl
      · exact shiftRead_bind fun _ _ => rfl
    · split <;> rfl

/-- A token is the same modifier further on. -/
theorem modifierOf?_shift (t : Token) : modifierOf? (t.shift n) = modifierOf? t := by
  simp only [modifierOf?, Token.shift_isIdent]

/-- A token can be a key further on when it can be one here. -/
theorem isKeyToken_shift (t : Token) : isKeyToken (t.shift n) = isKeyToken t := rfl

/-- A member further on in the text is the same member, with its key further on. -/
theorem read_shift (first : Token) (others : List Token) :
    read (first.shift n) (others.map (Token.shift n)) =
      shiftRead n (shift n) (read first others) := by
  have hplain := readPlain_shift n first others
  have hshorthand := readShorthand_shift n first others
  match others with
  | [] =>
    simp only [List.map_nil] at hplain
    have hgenerator := hshorthand .generator []
    simp only [List.map_nil] at hgenerator
    simp only [read, List.map_nil, Token.shift_isPunct, hplain, hgenerator]
    split
    · rfl
    · split
      · rfl
      · split <;> rfl
  | [second] =>
    have hgenerator := hshorthand .generator [second]
    have hasync := hshorthand .asyncGenerator []
    simp only [List.map_cons, List.map_nil] at hplain hgenerator hasync
    simp only [read, List.map_cons, List.map_nil, Token.shift_isPunct, Token.shift_isIdent, hplain,
      hgenerator, hasync]
    split
    · rfl
    · split
      · rfl
      · split
        · rfl
        · split <;> rfl
  | second :: third :: rest =>
    have hmodified (modifier : Modifier) := hshorthand modifier (second :: third :: rest)
    have hasync := hshorthand .asyncGenerator (third :: rest)
    simp only [List.map_cons] at hplain hmodified hasync
    simp only [read, List.map_cons, Token.shift_isPunct, Token.shift_isIdent, hplain, hmodified,
      hasync, modifierOf?_shift, isKeyToken_shift]
    split
    · rfl
    · split
      · rfl
      · split
        · rfl
        · split
          · rfl
          · split <;> rfl

/-! ### Property literals -/

/-- A member is refused further on for what it is refused here. -/
theorem readOne_shift (first : Token) (others : List Token) :
    readOne (first.shift n) (others.map (Token.shift n)) =
      shiftRead n (shift n) (readOne first others) := by
  rw [readOne, readOne, read_shift]
  refine shiftRead_bind fun member _ => ?_
  have hname : (member.shift n).key.name = member.key.name := rfl
  have hmethod : (member.shift n).isMethod = member.isMethod := rfl
  rw [hname, hmethod]
  split <;> rfl

/-- The members of a literal are the same further on. -/
theorem readEach_shift (tokens : List Token) :
    readEach (tokens.map (Token.shift n)) = shiftRead n (List.map (shift n)) (readEach tokens) := by
  fun_induction readEach tokens with
  | case1 =>
    rw [List.map_nil, readEach]
    rfl
  | case2 t rest after h =>
    have hcut := cutAtComma_shift n 0 (t :: rest)
    rw [h] at hcut
    exact readEach_of_empty hcut
  | case3 t rest first others after h ih =>
    have hcut := cutAtComma_shift n 0 (t :: rest)
    rw [h] at hcut
    rw [List.map_cons, readEach_of_cut hcut, readOne_shift]
    refine shiftRead_bind fun member _ => ?_
    rw [ih]
    exact shiftRead_map fun _ => rfl

/-- Members replace each other further on as they do here. -/
theorem insert_shift (m : Member) (before : List Member) :
    (m.shift n).insert (before.map (shift n)) = (m.insert before).map (shift n) := by
  induction before with
  | nil => rfl
  | cons other before ih =>
    have hslot (m : Member) : (m.shift n).slot = m.slot := rfl
    have hreplaces : (m.shift n).replaces = m.replaces := rfl
    rw [List.map_cons, insert, insert, hslot, hreplaces]
    split
    · rw [List.map_cons, List.filter_map]
      rfl
    · rw [List.map_cons, ih]

/-- A property literal keeps the same members further on. -/
theorem ofBody_shift (body : List Token) :
    ofBody (body.map (Token.shift n)) = shiftRead n (List.map (shift n)) (ofBody body) := by
  rw [ofBody, ofBody, readAll_eq, readAll_eq, readEach_shift]
  refine shiftRead_map fun written => ?_
  have hfold (before : List Member) :
      (written.map (shift n)).foldl (fun before new => new.insert before)
          (before.map (shift n)) =
        (written.foldl (fun before new => new.insert before) before).map (shift n) := by
    induction written generalizing before with
    | nil => rfl
    | cons m written ih =>
      rw [List.map_cons, List.foldl_cons, List.foldl_cons, insert_shift, ih]
  exact hfold []

end Member

end Reclass
