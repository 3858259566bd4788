import Reclass.Proofs.Script.Group
import Reclass.Proofs.Script.Sequence

/-!
# Scripts at another place

A text that stands further on in a source has the same tokens, all of them as many bytes further
on. What is read from tokens moves with them, and so does the place of a fault.
-/

namespace Reclass

/-- A token that stands `n` bytes further on. -/
def Token.shift (n : Nat) (t : Token) : Token := { t with start := t.start + n }

/-- A fault that is found `n` bytes further on. -/
def SyntaxError.shift (n : Nat) (e : SyntaxError) : SyntaxError := { e with offset := e.offset + n }

namespace Token

variable (n : Nat) (t : Token) (tokens : List Token)

/-- A token further on is of the same kind. -/
@[simp] theorem shift_kind : (t.shift n).kind = t.kind := rfl

/-- A token further on has the same text. -/
@[simp] theorem shift_text : (t.shift n).text = t.text := rfl

/-- A token further on has the same gap before it. -/
@[simp] theorem shift_gap : (t.shift n).gap = t.gap := rfl

/-- A token further on starts further on. -/
@[simp] theorem shift_start : (t.shift n).start = t.start + n := rfl

/-- A token further on has the same spelling. -/
@[simp] theorem shift_word : (t.shift n).word = t.word := rfl

/-- A token further on is the same sign. -/
@[simp] theorem shift_isPunct (text : String) : (t.shift n).isPunct text = t.isPunct text := by
  rw [isPunct, isPunct, shift_kind, shift_text]

/-- A token further on is the same name. -/
@[simp] theorem shift_isIdent (text : String) : (t.shift n).isIdent text = t.isIdent text := by
  rw [isIdent, isIdent, shift_kind, shift_text]

/-- A token further on opens the same pair. -/
@[simp] theorem shift_opens? : (t.shift n).opens? = t.opens? := rfl

/-- A token further on closes the same pair. -/
@[simp] theorem shift_closes? : (t.shift n).closes? = t.closes? := rfl

/-- A token further on ends further on. -/
@[simp] theorem shift_stop : (t.shift n).stop = t.stop + n := by
  simp only [stop, shift_start, shift_text]
  omega

/-- Tokens further on have the same text. -/
@[simp] theorem run_map_shift : run (tokens.map (shift n)) = run tokens := by
  simp [run, List.flatMap_map]

/-- Tokens further on have the same text from the first character on. -/
@[simp] theorem span_map_shift : span (tokens.map (shift n)) = span tokens := by
  cases tokens with
  | nil => rfl
  | cons t tokens => rw [List.map_cons, span_cons, span_cons, run_map_shift, shift_text]

/-- The last of some tokens further on ends further on. -/
@[simp] theorem lastStop_shift :
    lastStop (t.shift n) (tokens.map (shift n)) = lastStop t tokens + n := by
  rw [lastStop, lastStop, List.getLast?_map]
  cases tokens.getLast? <;> simp

end Token

/-! ### Outcomes of reading -/

section Outcome

variable {α β : Type}

/-- An outcome of reading, `n` bytes further on. How what has been read moves is given by `f`. -/
def shiftRead (n : Nat) (f : α → α) (x : Except SyntaxError α) : Except SyntaxError α :=
  (x.map f).mapError (.shift n)

variable {n : Nat} {f : α → α} {g : β → β} {x : Except SyntaxError α}

/-- Two steps move when the second one moves with what the first one has read. -/
theorem shiftRead_bind {k k' : α → Except SyntaxError β}
    (h : ∀ a, x = .ok a → k' (f a) = shiftRead n g (k a)) :
    shiftRead n f x >>= k' = shiftRead n g (x >>= k) := by
  cases x with
  | error e => rfl
  | ok a => exact h a rfl

/-- What is made of an outcome can be made before it is moved, or after. -/
theorem shiftRead_map {k k' : α → β} (h : ∀ a, k' (f a) = g (k a)) :
    (shiftRead n f x).map k' = shiftRead n g (x.map k) := by
  cases x with
  | error e => rfl
  | ok a => exact congrArg Except.ok (h a)

end Outcome

namespace Script

/-! ### Groups -/

/-- A group that stands `n` bytes further on. -/
def Closed.shift (n : Nat) (group : Closed) : Closed where
  inside := group.inside.map (Token.shift n)
  closer := group.closer.shift n
  rest := group.rest.map (Token.shift n)

private theorem closeInside_shift (n : Nat) (opener : Bracket × Nat)
    (pending : List (Bracket × Nat)) (tokens : List Token) :
    closeInside (opener.1, opener.2 + n) (pending.map fun p => (p.1, p.2 + n))
        (tokens.map (Token.shift n)) =
      shiftRead n (Closed.shift n) (closeInside opener pending tokens) := by
  have hcons (t : Token) (group : Except SyntaxError Closed) :
      (shiftRead n (Closed.shift n) group).map (.cons (t.shift n)) =
        shiftRead n (Closed.shift n) (group.map (.cons t)) :=
    shiftRead_map fun _ => rfl
  fun_induction closeInside opener pending tokens with
  | case1 pending => cases pending <;> rfl
  | case2 pending t rest b hopens ih =>
    simp only [List.map_cons, closeInside, Token.shift_opens?, hopens]
    rw [← hcons, ← ih]
    rfl
  | case3 t rest hopens pending hcloses ih =>
    simp only [List.map_cons, closeInside, Token.shift_opens?, hopens, Token.shift_closes?, hcloses]
    rw [← hcons, ← ih]
  | case4 t rest hopens hcloses =>
    simp only [List.map_cons, List.map_nil, closeInside, Token.shift_opens?, hopens,
      Token.shift_closes?, hcloses, if_true]
    rfl
  | case5 t rest hopens b hcloses hne =>
    simp only [List.map_cons, List.map_nil, closeInside, Token.shift_opens?, hopens,
      Token.shift_closes?, hcloses, if_neg hne]
    rfl
  | case6 t rest hopens inner pending hcloses ih =>
    simp only [List.map_cons, closeInside, Token.shift_opens?, hopens, Token.shift_closes?, hcloses,
      if_true]
    rw [← hcons, ← ih]
  | case7 t rest hopens b inner pending hcloses hne =>
    simp only [List.map_cons, closeInside, Token.shift_opens?, hopens, Token.shift_closes?, hcloses,
      if_neg hne]
    rfl

/-- The tokens behind a group move with it. -/
@[simp] theorem Closed.shift_rest (n : Nat) (group : Closed) :
    (group.shift n).rest = group.rest.map (Token.shift n) := rfl

/-- A group and the token that opens it have the same text further on. -/
@[simp] theorem span_group_shift (n : Nat) (t : Token) (group : Closed) :
    Token.span (t.shift n :: ((group.shift n).inside ++ [(group.shift n).closer])) =
      Token.span (t :: (group.inside ++ [group.closer])) := by
  rw [← Token.span_map_shift n (t :: (group.inside ++ [group.closer]))]
  simp [Closed.shift]

/-- A group is closed in the same way further on. -/
theorem closeGroup_shift (n : Nat) (t : Token) (rest : List Token) :
    closeGroup (t.shift n) (rest.map (Token.shift n)) =
      shiftRead n (Closed.shift n) (closeGroup t rest) := by
  rw [closeGroup, closeGroup, Token.shift_opens?]
  cases t.opens? with
  | none => rfl
  | some b => exact closeInside_shift n (b, t.start) [] rest

/-! ### Tokens one after the other -/

/-- That tokens stand one after the other, the gap of the first one at a byte offset. -/
def PlacedFrom : Nat → List Token → Prop
  | _, [] => True
  | offset, t :: rest => t.start = offset + Text.byteLength t.gap ∧ PlacedFrom t.stop rest

/-- The tokens behind one of some stand from the end of that one. -/
theorem PlacedFrom.behind {offset : Nat} {tokens : List Token} {t : Token} {rest : List Token}
    (h : PlacedFrom offset (tokens ++ t :: rest)) : PlacedFrom t.stop rest := by
  induction tokens generalizing offset with
  | nil => exact h.2
  | cons u tokens ih => exact ih h.2

/-- The first of some tokens stand where all of them do. -/
theorem PlacedFrom.left {offset : Nat} {tokens rest : List Token}
    (h : PlacedFrom offset (tokens ++ rest)) : PlacedFrom offset tokens := by
  induction tokens generalizing offset with
  | nil => trivial
  | cons t tokens ih => exact ⟨h.1, ih h.2⟩

/-- The tokens of a stream stand one after the other. -/
theorem placedFrom_tokens {stream : TokenStream} {tokens : List Token}
    (h : stream.tokens = .ok tokens) : PlacedFrom stream.offset tokens := by
  fun_induction TokenStream.tokens stream generalizing tokens with
  | case1 => exact absurd h (by simp)
  | case2 =>
    cases h
    trivial
  | case3 stream t stream' hnext ih =>
    obtain ⟨tokens', htokens, rfl⟩ := Except.map_eq_ok_iff.mp h
    unfold TokenStream.next at hnext
    split at hnext
    · exact absurd hnext (by simp)
    · split at hnext
      · simp only [Prod.mk.injEq, Except.ok.injEq, Option.some.injEq] at hnext
        obtain ⟨rfl, rfl⟩ := hnext
        exact ⟨rfl, ih htokens⟩
      · exact absurd hnext (by simp)

private theorem ReadsTokens.eq_nil {slash slash' : Bool} {tokens : List Token} {rest : List Char}
    (h : ReadsTokens slash [] tokens slash' rest) : tokens = [] := by
  have htext := h.text
  cases h with
  | nil => rfl
  | @cons _ _ _ _ _ _ t _ _ hread _ =>
    have hne : t.text ≠ [] := hread.append.2
    simp [hne] at htext

/-- A text has one run of tokens. Where it stands twice, its tokens stand the same number of bytes
apart as the texts do. -/
theorem ReadsTokens.eq_map_shift {slash slash₁ slash₂ : Bool} {s : List Char}
    {tokens tokens' : List Token} {offset n : Nat} (h : ReadsTokens slash s tokens slash₁ [])
    (h' : ReadsTokens slash s tokens' slash₂ []) (hplaced : PlacedFrom offset tokens)
    (hplaced' : PlacedFrom (offset + n) tokens') : tokens' = tokens.map (Token.shift n) := by
  induction tokens generalizing slash s tokens' offset with
  | nil =>
    cases h
    exact h'.eq_nil
  | cons t tokens ih =>
    cases h' with
    | nil => exact absurd h.eq_nil (List.cons_ne_nil _ _)
    | @cons _ _ _ _ rest' _ t' tokens' hgap' hread' htail' =>
      cases h with
      | cons hgap hread htail =>
        -- both runs skip the same gap and read the same token, for readers are functions
        obtain ⟨hskipped, rfl⟩ := Prod.mk.inj (hgap.symm.trans hgap')
        obtain ⟨hlexeme, rfl⟩ := Prod.mk.inj (Option.some.inj
          ((lexeme?_eq_some_iff.mpr hread).symm.trans (lexeme?_eq_some_iff.mpr hread')))
        obtain ⟨hkind, htext⟩ := Lexeme.mk.inj hlexeme
        have hstart : t'.start = t.start + n := by
          rw [hplaced.1, hplaced'.1, hskipped]
          omega
        have hshift : t' = t.shift n := by
          rw [Token.shift, hkind, hskipped, htext, ← hstart]
        have htail'' := hplaced'.2
        rw [hshift, Token.shift_stop] at htail''
        rw [← hlexeme] at htail'
        rw [List.map_cons, ← hshift, ih htail htail' hplaced.2 htail'']

/-- What the tokens behind a token of a source are read from. -/
private theorem readsTokens_behind {source : String} {before run behind : List Token} {t : Token}
    (h : tokenize source = .ok (before ++ t :: (run ++ behind))) :
    (∃ slash, ReadsTokens t.lexeme.slash (Token.run run) run slash []) ∧
      PlacedFrom t.stop run := by
  obtain ⟨_, _, hall, _⟩ := readsTokens_of_tokens h
  obtain ⟨_, _, _, hfrom⟩ := hall.of_append
  refine ⟨?_, (placedFrom_tokens h).behind.left⟩
  cases hfrom with
  | cons _ _ htail =>
    obtain ⟨_, _, hrun, _⟩ := htail.of_append
    exact ⟨_, hrun.cut⟩

/-- Where two sources have the same text from a token on, they have the same tokens behind it. -/
theorem run_eq_map_shift {source source' : String}
    {before before' run run' behind behind' : List Token} {t t' : Token} {n : Nat}
    (h : tokenize source = .ok (before ++ t :: (run ++ behind)))
    (h' : tokenize source' = .ok (before' ++ t' :: (run' ++ behind')))
    (hlexeme : t'.lexeme = t.lexeme)
    (htext : Token.span (t' :: run') = Token.span (t :: run)) (hstop : t'.stop = t.stop + n) :
    run' = run.map (Token.shift n) := by
  obtain ⟨⟨_, hreads⟩, hplaced⟩ := readsTokens_behind h
  obtain ⟨⟨_, hreads'⟩, hplaced'⟩ := readsTokens_behind h'
  have hrun : Token.run run' = Token.run run := by
    rw [Token.span_cons, Token.span_cons, (Lexeme.mk.inj hlexeme).2] at htext
    exact List.append_cancel_left htext
  rw [hlexeme, hrun] at hreads'
  rw [hstop] at hplaced'
  exact hreads.eq_map_shift hreads' hplaced hplaced'

end Script

end Reclass
