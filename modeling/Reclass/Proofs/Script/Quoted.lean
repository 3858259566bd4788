import Reclass.Proofs.Script.Sequence

/-!
# What strings hold

Between its quotes a string holds characters that stand for themselves, and pairs of a backslash
and any character. Every backslash makes the text that the string stands for shorter than its
spelling, so a spelling that stands for itself has none.
-/

namespace Reclass

namespace Text

/-- What a backslash and a character stand for. -/
def escapeValue (c : Char) : List Char :=
  if c = 'n' then ['\n']
  else if c = 't' then ['\t']
  else if c = 'r' then ['\r']
  else if c = '\n' then []
  else [c]

/-- A backslash and a character stand for at most one character. -/
theorem escapeValue_length_le (c : Char) : (escapeValue c).length ≤ 1 := by
  unfold escapeValue
  split_ifs <;> simp

/-- A backslash and a character are read together. -/
theorem unescape_pair (c : Char) (s : List Char) :
    unescape ('\\' :: c :: s) = escapeValue c ++ unescape s := by
  unfold escapeValue
  split_ifs with hn ht hr hfeed
  · rw [hn, unescape]
    rfl
  · rw [ht, unescape]
    rfl
  · rw [hr, unescape]
    rfl
  · rw [hfeed, unescape]
    rfl
  · rw [unescape] <;> simp_all

/-- Any other character stands for itself. -/
theorem unescape_cons {c : Char} (hc : c ≠ '\\') (s : List Char) :
    unescape (c :: s) = c :: unescape s := by
  rw [unescape] <;> simp_all

/-- Text without a backslash stands for itself, whatever follows it. -/
theorem unescape_append {s t : List Char} (h : '\\' ∉ s) :
    unescape (s ++ t) = s ++ unescape t := by
  induction s with
  | nil => rfl
  | cons c s ih =>
    simp only [List.mem_cons, not_or] at h
    rw [List.cons_append, unescape_cons (fun hc => h.1 hc.symm), ih h.2, List.cons_append]

/-- A text without a backslash stands for itself. -/
theorem unescape_eq_self {s : List Char} (h : '\\' ∉ s) : unescape s = s := by
  have happend := unescape_append (t := []) h
  rwa [List.append_nil, unescape, List.append_nil] at happend

end Text

namespace Script

/-- That a text can stand between two quotes. -/
inductive Quoted (quote : Char) : List Char → Prop
  | nil : Quoted quote []
  /-- A character that is taken along by the backslash before it. -/
  | escaped (c : Char) {s : List Char} (hs : Quoted quote s) : Quoted quote ('\\' :: c :: s)
  | plain {c : Char} {s : List Char} (hquote : c ≠ quote) (hescape : c ≠ '\\') (hfeed : c ≠ '\n')
      (hs : Quoted quote s) : Quoted quote (c :: s)

/-- A string behind its opening quote: what stands between the quotes, and the other quote. -/
theorem quoted_of_stringTail {quote : Char} {s text rest : List Char}
    (h : stringTail quote s = .ok (text, rest)) :
    ∃ inside, text = inside ++ [quote] ∧ Quoted quote inside := by
  fun_induction stringTail quote s generalizing text rest with
  | case1 => exact absurd h (by simp)
  | case2 => exact absurd h (by simp)
  | case3 => exact absurd h (by simp)
  | case4 c s ih =>
    obtain ⟨⟨text', rest'⟩, htail, hread⟩ := Except.map_eq_ok_iff.mp h
    obtain ⟨inside, rfl, hinside⟩ := ih htail
    cases hread
    exact ⟨'\\' :: c :: inside, rfl, .escaped c hinside⟩
  | case5 s =>
    cases h
    exact ⟨[], rfl, .nil⟩
  | case6 c s hfeed hlone hpair hquote ih =>
    obtain ⟨⟨text', rest'⟩, htail, hread⟩ := Except.map_eq_ok_iff.mp h
    obtain ⟨inside, rfl, hinside⟩ := ih htail
    cases hread
    exact ⟨c :: inside, rfl, .plain hquote (ne_backslash hlone hpair) hfeed hinside⟩

/-- A string is read between two quotes. -/
theorem LexemeRead.stringTail_eq {slash : Bool} {c : Char} {s rest : List Char} {token : Lexeme}
    (h : LexemeRead slash (c :: s) token rest) (hkind : token.kind = .str) :
    ∃ text, token.text = c :: text ∧ (c = '"' ∨ c = '\'') ∧ stringTail c s = .ok (text, rest) := by
  cases h with
  | str hquote h => exact ⟨_, rfl, hquote, h⟩
  | _ => exact absurd hkind (by simp)

/-- The string tokens of a script are texts between quotes. -/
theorem exists_quoted_of_mem {source : String} {tokens : List Token} {t : Token}
    (h : tokenize source = .ok tokens) (ht : t ∈ tokens) (hkind : t.kind = .str) :
    ∃ quote inside, (quote = '"' ∨ quote = '\'') ∧ t.text = quote :: (inside ++ [quote]) ∧
      Quoted quote inside := by
  obtain ⟨_, _, hall, _⟩ := readsTokens_of_tokens h
  obtain ⟨slash, _, after, rest, _, hread⟩ := hall.of_mem ht
  cases after with
  | nil => cases hread
  | cons quote s =>
    obtain ⟨text, htext, hquote, htail⟩ := hread.stringTail_eq hkind
    obtain ⟨inside, rfl, hinside⟩ := quoted_of_stringTail htail
    exact ⟨quote, inside, hquote, htext, hinside⟩

namespace Quoted

variable {quote : Char} {s : List Char}

/-- What can stand between two quotes is read up to the second one, whatever follows it. -/
theorem stringTail_eq (h : Quoted quote s) (hquote : quote = '"' ∨ quote = '\'')
    (rest : List Char) : stringTail quote (s ++ quote :: rest) = .ok (s ++ [quote], rest) := by
  induction h with
  | nil =>
    have hfeed : quote ≠ '\n' := by rcases hquote with rfl | rfl <;> decide
    have hescape : quote ≠ '\\' := by rcases hquote with rfl | rfl <;> decide
    rw [List.nil_append, stringTail_cons _ hfeed hescape, if_pos rfl]
    rfl
  | escaped c _ ih =>
    rw [List.cons_append, List.cons_append, stringTail, ih]
    rfl
  | plain hne hescape hfeed _ ih =>
    rw [List.cons_append, stringTail_cons _ hfeed hescape, if_neg hne, ih]
    rfl

/-- A spelling is at least as long as what it stands for. -/
theorem unescape_length_le (h : Quoted quote s) : (Text.unescape s).length ≤ s.length := by
  induction h with
  | nil => exact Nat.le_refl _
  | escaped c _ ih =>
    have hvalue := Text.escapeValue_length_le c
    rw [Text.unescape_pair, List.length_append, List.length_cons, List.length_cons]
    omega
  | plain _ hescape _ _ ih =>
    rw [Text.unescape_cons hescape]
    exact Nat.succ_le_succ ih

/-- A spelling that is no longer than what it stands for has no backslash. -/
theorem all_of_length_le (h : Quoted quote s) (hlength : s.length ≤ (Text.unescape s).length) :
    ∀ c ∈ s, c ≠ quote ∧ c ≠ '\\' ∧ c ≠ '\n' := by
  induction h with
  | nil => simp
  | escaped c hs _ =>
    have hvalue := Text.escapeValue_length_le c
    have hle := hs.unescape_length_le
    rw [Text.unescape_pair, List.length_append, List.length_cons, List.length_cons] at hlength
    omega
  | plain hquote hescape hfeed _ ih =>
    rw [Text.unescape_cons hescape] at hlength
    exact List.forall_mem_cons.mpr ⟨⟨hquote, hescape, hfeed⟩, ih (Nat.le_of_succ_le_succ hlength)⟩

end Quoted

end Script

end Reclass
