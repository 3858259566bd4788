import Reclass.Handler.Registration
import Reclass.Proofs.Script.Group

/-!
# Where a registration stands

A registration is a run of the tokens of its source, and so is the property literal inside of it.
What is read from the arguments of a call is said by a predicate on the run that they are, so it
does not depend on what stands around them.
-/

namespace Reclass

open Script

namespace Registration

/-- The start of a call is four tokens, with what stands before and behind them. -/
theorem findStart?_eq_some {kinds : List HandlerKind} {tokens : List Token} {start : Start}
    (h : findStart? kinds tokens = some start) :
    ∃ a b c d, tokens = start.before ++ a :: b :: c :: d :: start.arguments ∧
      kindAt? kinds a b c d = some start.kind := by
  fun_induction findStart? kinds tokens generalizing start with
  | case1 a b c d rest kind hkind =>
    cases h
    exact ⟨a, b, c, d, rfl, hkind⟩
  | case2 a b c d rest hnone ih =>
    obtain ⟨start', hstart', rfl⟩ := Option.map_eq_some_iff.mp h
    obtain ⟨a', b', c', d', htokens, hkind⟩ := ih hstart'
    exact ⟨a', b', c', d', by rw [htokens]; rfl, hkind⟩
  | case3 => exact absurd h (by simp)

/-! ### The arguments of a call -/

/-- How the arguments of a call can end behind the property literal, and the parent that is given
there. -/
inductive CallEnd : List Token → Option (String × Nat) → Prop
  | close {close : Token} (hclose : close.isPunct ")") : CallEnd [close] none
  | comma {comma close : Token} (hcomma : comma.isPunct ",") (hclose : close.isPunct ")") :
      CallEnd [comma, close] none
  | parent {comma name close : Token} {value : String} (hcomma : comma.isPunct ",")
      (hname : name.textValue? = some value) (hclose : close.isPunct ")") :
      CallEnd [comma, name, close] (some (value, name.start))
  | parentComma {comma name comma' close : Token} {value : String} (hcomma : comma.isPunct ",")
      (hname : name.textValue? = some value) (hcomma' : comma'.isPunct ",")
      (hclose : close.isPunct ")") :
      CallEnd [comma, name, comma', close] (some (value, name.start))

private theorem not_isPunct_of_isPunct {t : Token} {text : String} (h : t.isPunct text = true)
    (text' : String) (hne : text.toList ≠ text'.toList) : t.isPunct text' = false := by
  have htext := (Token.isPunct_iff.mp h).2
  rw [← Bool.not_eq_true, Token.isPunct_iff, htext]
  exact fun h' => hne h'.2

private theorem not_isPunct_of_textValue? {t : Token} {value text : String}
    (h : t.textValue? = some value) : t.isPunct text = false := by
  rw [← Bool.not_eq_true, Token.isPunct_iff]
  rintro ⟨hkind, _⟩
  rw [Token.textValue?, hkind] at h
  exact absurd h (by simp)

/-- The end of the arguments is read exactly in these ways. -/
theorem readParent_eq_ok_iff {size : Nat} {tokens behind : List Token}
    {parent : Option (String × Nat)} :
    readParent size tokens = .ok (parent, behind) ↔
      ∃ ends, tokens = ends ++ behind ∧ CallEnd ends parent := by
  constructor
  · intro h
    unfold readParent at h
    split at h
    · exact absurd h (by simp)
    next t rest =>
    split at h
    · next hclose =>
      cases h
      exact ⟨[t], rfl, .close hclose⟩
    split at h
    · exact absurd h (by simp)
    next hcomma =>
    have hcomma : t.isPunct "," = true := by simpa using hcomma
    split at h
    · exact absurd h (by simp)
    next name rest =>
    split at h
    · next hclose =>
      cases h
      exact ⟨[t, name], rfl, .comma hcomma hclose⟩
    split at h
    · exact absurd h (by simp)
    next value hvalue =>
    cases rest with
    | nil => exact absurd h (by simp)
    | cons u rest =>
      by_cases hcomma' : u.isPunct "," = true
      · simp only [hcomma', if_true] at h
        split at h
        · exact absurd h (by simp)
        · next close rest =>
          split at h
          · next hclose =>
            cases h
            exact ⟨[t, name, u, close], rfl, .parentComma hcomma hvalue hcomma' hclose⟩
          · exact absurd h (by simp)
      · simp only [hcomma', Bool.false_eq_true, if_false] at h
        split at h
        · next hclose =>
          cases h
          exact ⟨[t, name, u], rfl, .parent hcomma hvalue hclose⟩
        · exact absurd h (by simp)
  · rintro ⟨ends, rfl, hends⟩
    cases hends with
    | close hclose => simp [readParent, hclose]
    | comma hcomma hclose =>
      have hnot := not_isPunct_of_isPunct hcomma ")" (by decide)
      simp [readParent, hcomma, hclose, hnot]
    | parent hcomma hname hclose =>
      have hnot := not_isPunct_of_isPunct hcomma ")" (by decide)
      have hnot' := not_isPunct_of_isPunct hclose "," (by decide)
      simp [readParent, hcomma, hclose, hnot, hname, hnot', not_isPunct_of_textValue? hname]
    | parentComma hcomma hname hcomma' hclose =>
      have hnot := not_isPunct_of_isPunct hcomma ")" (by decide)
      simp [readParent, hcomma, hclose, hnot, hname, hcomma', not_isPunct_of_textValue? hname]

/-- That some tokens are the arguments of a call, from its name to the parenthesis that closes it,
and what they say. -/
def IsArguments (arguments : List Token) (call : Registration) : Prop :=
  ∃ name comma ends,
    arguments = name :: comma :: call.opener :: (call.body ++ call.closer :: ends) ∧
      name.textValue? = some call.name ∧ name.start = call.nameOffset ∧ comma.isPunct "," ∧
      call.opener.isPunct "\x7b" ∧ CallEnd ends call.parent ∧
      ∀ rest, closeGroup call.opener (call.body ++ call.closer :: rest) =
        .ok ⟨call.body, call.closer, rest⟩

/-- A call is read exactly when its arguments stand at the start of what follows the opening
parenthesis. -/
theorem read_eq_ok_iff {size : Nat} {start : Start} {call : Registration} :
    read size start = .ok call ↔
      ∃ arguments behind, start.arguments = arguments ++ behind ∧ IsArguments arguments call ∧
        call.kind = start.kind ∧
        call.strayTokens = countStray start.before + countStray behind := by
  constructor
  · intro h
    unfold read at h
    split at h
    · exact absurd h (by simp)
    next name rest harguments =>
    split at h
    · exact absurd h (by simp)
    · exact absurd h (by simp)
    next value comma rest hvalue =>
    split at h
    · exact absurd h (by simp)
    next hcomma =>
    split at h
    · exact absurd h (by simp)
    next opener rest =>
    split at h
    · exact absurd h (by simp)
    next hopener =>
    obtain ⟨literal, hliteral, h⟩ := Except.bind_eq_ok_iff.mp h
    obtain ⟨⟨parent, behind⟩, hparent, h⟩ := Except.bind_eq_ok_iff.mp h
    cases h
    obtain ⟨ends, hrest, hends⟩ := readParent_eq_ok_iff.mp hparent
    obtain ⟨htokens, _⟩ := closeGroup_eq_ok hliteral
    refine ⟨name :: comma :: opener :: (literal.inside ++ literal.closer :: ends), behind, ?_,
      ⟨name, comma, ends, rfl, hvalue, rfl, by simpa using hcomma, by simpa using hopener, hends,
        closeGroup_again hliteral⟩, rfl, rfl⟩
    rw [harguments, htokens, hrest]
    simp
  · rintro ⟨arguments, behind, harguments, ⟨name, comma, ends, rfl, hname, hoffset, hcomma,
      hopener, hends, hgroup⟩, hkind, hstray⟩
    have hparent : readParent size (ends ++ behind) = .ok (call.parent, behind) :=
      readParent_eq_ok_iff.mpr ⟨ends, rfl, hends⟩
    simp only [List.cons_append, List.append_assoc] at harguments
    simp only [read, harguments, hname, hcomma, hopener, hgroup, hparent, Bool.not_true,
      Bool.false_eq_true, if_false, bind, Except.bind, pure, Except.pure, ← hkind, ← hstray,
      hoffset]

/-- The arguments of a call start with its name, a comma and the property literal. -/
theorem read_eq_ok {size : Nat} {start : Start} {call : Registration}
    (h : read size start = .ok call) :
    ∃ name comma rest, start.arguments =
        name :: comma :: call.opener :: (call.body ++ call.closer :: rest) ∧
      call.opener.isPunct "\x7b" ∧ call.kind = start.kind ∧ name.textValue? = some call.name := by
  obtain ⟨arguments, behind, harguments, ⟨name, comma, ends, rfl, hname, _, _, hopener, _⟩, hkind,
    _⟩ := read_eq_ok_iff.mp h
  refine ⟨name, comma, ends ++ behind, ?_, hopener, hkind, hname⟩
  rw [harguments]
  simp

/-! ### Calls in a source -/

/-- A registration that is found stands among the tokens of the source. -/
theorem find?_eq_some {kinds : List HandlerKind} {source : String} {call : Registration}
    (h : find? kinds source = .ok (some call)) :
    ∃ tokens start, tokenize source = .ok tokens ∧ findStart? kinds tokens = some start ∧
      read source.utf8ByteSize start = .ok call := by
  obtain ⟨tokens, htokens, h⟩ := Except.bind_eq_ok_iff.mp h
  cases hstart : findStart? kinds tokens with
  | none =>
    rw [hstart] at h
    cases h
  | some start =>
    rw [hstart] at h
    obtain ⟨call', hcall, h⟩ := Except.bind_eq_ok_iff.mp h
    cases h
    exact ⟨tokens, start, htokens, hstart, hcall⟩

/-- What is computed from the first registration of a source is computed from some registration. -/
theorem exists_first?_of_bind {α : Type} {source : String} {f : Registration → Option α} {a : α}
    (h : (first? source).toOption.join.bind f = some a) :
    ∃ call, first? source = .ok (some call) ∧ f call = some a := by
  obtain ⟨call, hcall, hf⟩ := Option.bind_eq_some_iff.mp h
  exact ⟨call, Except.toOption_eq_some_iff.mp (Option.join_eq_some_iff.mp hcall), hf⟩

/-- There is no registration when the tokens hold no start of one. -/
theorem find?_eq_none_iff {kinds : List HandlerKind} {source : String} :
    find? kinds source = .ok none ↔
      ∃ tokens, tokenize source = .ok tokens ∧ findStart? kinds tokens = none := by
  rw [find?, Except.bind_eq_ok_iff]
  constructor
  · rintro ⟨tokens, htokens, h⟩
    refine ⟨tokens, htokens, ?_⟩
    cases hstart : findStart? kinds tokens with
    | none => rfl
    | some start =>
      rw [hstart] at h
      obtain ⟨call, _, h⟩ := Except.bind_eq_ok_iff.mp h
      cases h
  · rintro ⟨tokens, htokens, hstart⟩
    exact ⟨tokens, htokens, by rw [hstart]; rfl⟩

/-- The tokens inside the property literal are a run of the tokens of the source. -/
theorem body_isInfix {kinds : List HandlerKind} {source : String} {call : Registration}
    (h : find? kinds source = .ok (some call)) :
    ∃ tokens, tokenize source = .ok tokens ∧ call.body <:+: tokens := by
  obtain ⟨tokens, start, htokens, hstart, hcall⟩ := find?_eq_some h
  obtain ⟨a, b, c, d, hsplit, _⟩ := findStart?_eq_some hstart
  obtain ⟨name, comma, rest, harguments, _⟩ := read_eq_ok hcall
  refine ⟨tokens, htokens, start.before ++ [a, b, c, d, name, comma, call.opener],
    call.closer :: rest, ?_⟩
  rw [hsplit, harguments]
  simp

end Registration

end Reclass
