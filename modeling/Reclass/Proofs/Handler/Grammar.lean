import Reclass.Proofs.Handler.Registration
import Reclass.Proofs.Handler.Calls
import Reclass.Proofs.Segment

/-!
# The grammar of a registration

Among the tokens of a source the first four that start a registration decide where it is read. From
there on a fixed grammar says what is accepted: a name, a comma, a property literal that is closed
by the brace matching its own, and one of four endings. Everything else is an error.
-/

namespace Reclass

open Script

namespace Token

/-- That a token stands for a text: it is a string, or a template without substitutions. -/
def IsText (t : Token) : Prop :=
  t.kind = .str ∨ t.kind = .template ∧ ¬['$', '\x7b'] <:+: t.text

/-- These are the tokens from which a text is read. -/
theorem isText_iff {t : Token} : t.IsText ↔ ∃ value, t.textValue? = some value := by
  rw [IsText, textValue?]
  cases t.kind with
  | str => simp
  | template => simp [← Text.occursIn_iff]
  | _ => simp

end Token

namespace Registration

/-- That four tokens from an index on start the registration of a handler of some kind. -/
def StartsAt (tokens : List Token) (i : Nat) (kind : HandlerKind) : Prop :=
  ((tokens.drop i).take 4).map Token.lexeme = kind.callStart

instance (tokens : List Token) (i : Nat) (kind : HandlerKind) :
    Decidable (StartsAt tokens i kind) :=
  inferInstanceAs (Decidable (_ = _))

/-- That a call is written among the tokens, of which the first four start at `i`. Its literal is
closed at `c`, and `stop` is the index behind the parenthesis that closes it. -/
structure WrittenAt (tokens : List Token) (i c stop : Nat) (parent : Option (String × Nat)) :
    Prop where
  name : ∃ t, tokens[i + 4]? = some t ∧ t.IsText
  comma : ∃ t, tokens[i + 5]? = some t ∧ t.isPunct ","
  opener : ∃ t, tokens[i + 6]? = some t ∧ t.isPunct "\x7b"
  opener_lt : i + 6 < c
  inside : Balanced (tokens.extract (i + 7) c)
  closer : ∃ t, tokens[c]? = some t ∧ t.isPunct "\x7d"
  ends : CallEnd (tokens.extract (c + 1) stop) parent

/-- That a registration says what a call that is written there says. -/
structure ReadFrom (tokens : List Token) (i c stop : Nat) (parent : Option (String × Nat))
    (call : Registration) : Prop where
  kind : StartsAt tokens i call.kind
  name : ∃ t, tokens[i + 4]? = some t ∧ t.textValue? = some call.name ∧ t.start = call.nameOffset
  opener : tokens[i + 6]? = some call.opener
  body : call.body = tokens.extract (i + 7) c
  closer : tokens[c]? = some call.closer
  parent : call.parent = parent
  strayTokens : call.strayTokens = countStray (tokens.take i) + countStray (tokens.drop stop)

/-! ### The first start -/

/-- Behind the first token, a start has an index that is one less. -/
theorem StartsAt.of_cons {tokens : List Token} {t : Token} {i : Nat} {kind : HandlerKind}
    (h : StartsAt (t :: tokens) (i + 1) kind) : StartsAt tokens i kind := h

/-- A start of a registration takes four tokens. -/
theorem StartsAt.lt_length {tokens : List Token} {i : Nat} {kind : HandlerKind}
    (h : StartsAt tokens i kind) : i + 3 < tokens.length := by
  have hlength := congrArg List.length h
  simp only [HandlerKind.callStart, List.length_map, List.length_take, List.length_drop,
    List.length_cons, List.length_nil] at hlength
  omega

/-- A start consists of four tokens. -/
theorem startsAt_zero_iff {tokens : List Token} {kind : HandlerKind} :
    StartsAt tokens 0 kind ↔
      ∃ a b c d rest, tokens = a :: b :: c :: d :: rest ∧
        kindAt? HandlerKind.all a b c d = some kind := by
  constructor
  · intro h
    have hlength := h.lt_length
    match tokens, hlength with
    | a :: b :: c :: d :: rest, _ => exact ⟨a, b, c, d, rest, rfl, kindAt?_eq_some_iff.mpr h⟩
  · rintro ⟨a, b, c, d, rest, rfl, h⟩
    exact kindAt?_eq_some_iff.mp h

/-- What is found is a start. -/
theorem startsAt_of_findStart? {tokens : List Token} {start : Start}
    (h : findStart? HandlerKind.all tokens = some start) :
    StartsAt tokens start.before.length start.kind := by
  obtain ⟨a, b, c, d, htokens, hkind⟩ := findStart?_eq_some h
  rw [StartsAt, htokens, List.drop_left]
  exact kindAt?_eq_some_iff.mp hkind

/-- The first start is found. -/
theorem findStart?_of_first {tokens : List Token} {i : Nat} {kind : HandlerKind}
    (h : StartsAt tokens i kind) (hfirst : ∀ j < i, ∀ kind', ¬StartsAt tokens j kind') :
    findStart? HandlerKind.all tokens = some ⟨tokens.take i, kind, tokens.drop (i + 4)⟩ := by
  induction i generalizing tokens with
  | zero =>
    obtain ⟨a, b, c, d, rest, rfl, hkind⟩ := startsAt_zero_iff.mp h
    simp [findStart?, hkind]
  | succ i ih =>
    have hlength := h.lt_length
    match tokens, hlength with
    | a :: b :: c :: d :: rest, _ =>
      have hnone : kindAt? HandlerKind.all a b c d = none := by
        rw [Option.eq_none_iff_forall_ne_some]
        exact fun kind' hkind' =>
          hfirst 0 (by omega) kind' (startsAt_zero_iff.mpr ⟨a, b, c, d, rest, rfl, hkind'⟩)
      have hrest := ih h.of_cons fun j hj kind' hj' => hfirst (j + 1) (by omega) kind' hj'
      rw [findStart?, hnone, hrest]
      rfl

/-! ### The arguments behind a start -/

/-- A call ends with at least its closing parenthesis. -/
theorem CallEnd.ne_nil {ends : List Token} {parent : Option (String × Nat)}
    (h : CallEnd ends parent) : ends ≠ [] := by
  cases h <;> simp

/-- The literal of a call is closed before the call ends. -/
theorem WrittenAt.closer_lt {tokens : List Token} {i c stop : Nat} {parent : Option (String × Nat)}
    (h : WrittenAt tokens i c stop parent) : c < stop := by
  by_contra hstop
  refine h.ends.ne_nil ?_
  rw [List.extract_eq_take_drop, Nat.sub_eq_zero_of_le (by omega), List.take_zero]

/-- A call that is written is read. -/
theorem read_of_writtenAt {size : Nat} {tokens : List Token} {i c stop : Nat}
    {parent : Option (String × Nat)} {kind : HandlerKind} (hstart : StartsAt tokens i kind)
    (h : WrittenAt tokens i c stop parent) :
    ∃ call, read size ⟨tokens.take i, kind, tokens.drop (i + 4)⟩ = .ok call ∧
      ReadFrom tokens i c stop parent call := by
  have hopener_lt := h.opener_lt
  have hcloser_lt := h.closer_lt
  obtain ⟨name, hname, hnameText⟩ := h.name
  obtain ⟨comma, hcomma, hcommaText⟩ := h.comma
  obtain ⟨opener, hopener, hopenerText⟩ := h.opener
  obtain ⟨closer, hcloser, hcloserText⟩ := h.closer
  obtain ⟨value, hvalue⟩ := Token.isText_iff.mp hnameText
  refine ⟨{
    kind := kind
    name := value
    nameOffset := name.start
    opener := opener
    body := tokens.extract (i + 7) c
    closer := closer
    parent := parent
    strayTokens := countStray (tokens.take i) + countStray (tokens.drop stop) }, ?_,
    ⟨hstart, ⟨name, hname, hvalue, rfl⟩, hopener, rfl, hcloser, rfl, rfl⟩⟩
  have hgroup : ∀ rest, closeGroup opener (tokens.extract (i + 7) c ++ closer :: rest) =
      .ok ⟨tokens.extract (i + 7) c, closer, rest⟩ := fun rest =>
    closeGroup_eq_ok_iff.mpr ⟨rfl, h.inside, .curly,
      Token.opens?_eq_some_iff.mpr (Token.isPunct_iff.mp hopenerText),
      Token.closes?_eq_some_iff.mpr (Token.isPunct_iff.mp hcloserText)⟩
  have hinside : tokens.extract (i + 7) c ++ tokens.drop c = tokens.drop (i + 7) :=
    List.extract_append_drop hopener_lt
  have hends : tokens.extract (c + 1) stop ++ tokens.drop stop = tokens.drop (c + 1) :=
    List.extract_append_drop hcloser_lt
  refine read_eq_ok_iff.mpr ⟨_, tokens.drop stop, ?_, ⟨name, comma, tokens.extract (c + 1) stop,
    rfl, hvalue, rfl, hcommaText, hopenerText, h.ends, hgroup⟩, rfl, rfl⟩
  rw [List.drop_eq_cons hname, List.drop_eq_cons hcomma, List.drop_eq_cons hopener, ← hinside,
    List.drop_eq_cons hcloser, ← hends]
  simp

/-- What is read is a call that is written. -/
theorem exists_writtenAt_of_read {size : Nat} {tokens : List Token} {i : Nat} {kind : HandlerKind}
    {call : Registration}
    (h : read size ⟨tokens.take i, kind, tokens.drop (i + 4)⟩ = .ok call) :
    ∃ c stop parent, WrittenAt tokens i c stop parent := by
  obtain ⟨_, behind, harguments, ⟨name, comma, ends, rfl, hname, _, hcomma, hopener, hends, hgroup⟩,
    _⟩ := read_eq_ok_iff.mp h
  obtain ⟨_, hinside, b, hopens, hcloses⟩ := closeGroup_eq_ok_iff.mp (hgroup [])
  have hcurly : call.opener.opens? = some .curly :=
    Token.opens?_eq_some_iff.mpr (Token.isPunct_iff.mp hopener)
  obtain rfl : .curly = b := Option.some.inj (hcurly.symm.trans hopens)
  -- What follows each of the places.
  have hdropName : tokens.drop (i + 4) =
      name :: comma :: call.opener :: (call.body ++ call.closer :: (ends ++ behind)) := by
    simpa using harguments
  have hdropComma := List.drop_succ_of_drop_eq_cons hdropName
  have hdropOpener := List.drop_succ_of_drop_eq_cons hdropComma
  have hdropBody := List.drop_succ_of_drop_eq_cons hdropOpener
  have hdropCloser : tokens.drop (i + 7 + call.body.length) = call.closer :: (ends ++ behind) := by
    rw [← List.drop_drop, hdropBody, List.drop_left]
  have hdropEnds := List.drop_succ_of_drop_eq_cons hdropCloser
  refine ⟨i + 7 + call.body.length, i + 7 + call.body.length + 1 + ends.length, call.parent, ?_⟩
  exact {
    name := ⟨name, List.getElem?_of_drop_eq_cons hdropName, Token.isText_iff.mpr ⟨_, hname⟩⟩
    comma := ⟨comma, List.getElem?_of_drop_eq_cons hdropComma, hcomma⟩
    opener := ⟨call.opener, List.getElem?_of_drop_eq_cons hdropOpener, hopener⟩
    opener_lt := by omega
    inside := by
      rw [List.extract_of_drop_eq_append hdropBody]
      exact hinside
    closer := ⟨call.closer, List.getElem?_of_drop_eq_cons hdropCloser,
      Token.isPunct_iff.mpr (Token.closes?_eq_some_iff.mp hcloses)⟩
    ends := by
      rw [List.extract_of_drop_eq_append hdropEnds]
      exact hends }

/-! ### Registrations in a source -/

/-- Without a start there is no registration. -/
theorem first?_eq_none_iff {source : String} {tokens : List Token}
    (htokens : tokenize source = .ok tokens) :
    first? source = .ok none ↔ ∀ i kind, ¬StartsAt tokens i kind := by
  have hfind : first? source = .ok none ↔ findStart? HandlerKind.all tokens = none := by
    rw [first?, find?_eq_none_iff, htokens]
    simp
  rw [hfind]
  constructor
  · intro hnone i kind hstart
    -- Among the starts there is a first one, and it would be found.
    classical
    have hexists : ∃ i, ∃ kind, StartsAt tokens i kind := ⟨i, kind, hstart⟩
    obtain ⟨kind', hkind'⟩ := Nat.find_spec hexists
    have hfound := findStart?_of_first hkind' fun j hj kind'' hj' =>
      Nat.find_min hexists hj ⟨kind'', hj'⟩
    rw [hnone] at hfound
    exact absurd hfound (by simp)
  · intro hnone
    rw [Option.eq_none_iff_forall_ne_some]
    exact fun start hstart => hnone _ _ (startsAt_of_findStart? hstart)

/-- What is read at the first start is the registration. -/
theorem first?_of_first {source : String} {tokens : List Token} {i : Nat} {kind : HandlerKind}
    (htokens : tokenize source = .ok tokens) (hstart : StartsAt tokens i kind)
    (hfirst : ∀ j < i, ∀ kind', ¬StartsAt tokens j kind') :
    first? source =
      (read source.utf8ByteSize ⟨tokens.take i, kind, tokens.drop (i + 4)⟩).map some := by
  rw [first?, find?, htokens]
  simp only [bind, Except.bind, findStart?_of_first hstart hfirst]
  rfl

/-- Exactly the calls of the grammar are accepted, at the first place where a registration starts,
and they are read as they are written. -/
theorem first?_accepts_grammar {source : String} {tokens : List Token}
    (htokens : tokenize source = .ok tokens) :
    (first? source = .ok none ↔ ∀ i kind, ¬StartsAt tokens i kind) ∧
      ∀ i kind, StartsAt tokens i kind → (∀ j < i, ∀ kind', ¬StartsAt tokens j kind') →
        ((∃ call, first? source = .ok (some call)) ↔
          ∃ c stop parent, WrittenAt tokens i c stop parent) ∧
        ((∃ e, first? source = .error e) ↔ ¬∃ c stop parent, WrittenAt tokens i c stop parent) ∧
        ∀ call c stop parent, first? source = .ok (some call) →
          WrittenAt tokens i c stop parent → ReadFrom tokens i c stop parent call := by
  refine ⟨first?_eq_none_iff htokens, fun i kind hstart hfirst => ?_⟩
  rw [first?_of_first htokens hstart hfirst]
  cases hread : read source.utf8ByteSize ⟨tokens.take i, kind, tokens.drop (i + 4)⟩ with
  | ok call =>
    have hwritten := exists_writtenAt_of_read hread
    refine ⟨by simpa [Except.map] using hwritten, by simpa [Except.map] using hwritten, ?_⟩
    intro call' c stop parent hcall' hwritten'
    obtain ⟨call'', hread', hfrom⟩ := read_of_writtenAt hstart hwritten'
    rw [hread] at hread'
    cases hread'
    cases hcall'
    exact hfrom
  | error e =>
    have hnot : ¬∃ c stop parent, WrittenAt tokens i c stop parent := by
      rintro ⟨c, stop, parent, hwritten⟩
      obtain ⟨call, hcall, _⟩ := read_of_writtenAt hstart hwritten
      rw [hread] at hcall
      cases hcall
    refine ⟨by simpa [Except.map] using hnot, by simpa [Except.map] using hnot, ?_⟩
    intro call c stop parent hcall
    exact absurd hcall (by simp [Except.map])

/-- A call behind and before other code, with a template for its name and a comma behind the
parent. -/
theorem first?_accepts_template_and_last_comma :
    ∃ source : String, ∃ tokens call c stop parent,
      source = "o; NGS.createLoad(`a.x`, { f() {} }, 'b.y', ) / 2;" ∧
      tokenize source = .ok tokens ∧ StartsAt tokens 2 .load ∧
      WrittenAt tokens 2 c stop parent ∧ first? source = .ok (some call) ∧
      ReadFrom tokens 2 c stop parent call ∧ call.name = "a.x" ∧ call.strayTokens = 3 := by
  let source := "o; NGS.createLoad(`a.x`, { f() {} }, 'b.y', ) / 2;"
  let tokens := (tokenize source).toOption.getD []
  have htokens : tokenize source = .ok tokens := by decide +kernel
  have hstart : StartsAt tokens 2 .load := by decide +kernel
  have hnone : ∀ kind', ¬StartsAt tokens 0 kind' ∧ ¬StartsAt tokens 1 kind' := by
    intro kind'
    cases kind' <;> decide +kernel
  have hfirst : ∀ j < 2, ∀ kind', ¬StartsAt tokens j kind' := by
    intro j hj kind'
    obtain rfl | rfl : j = 0 ∨ j = 1 := by omega
    · exact (hnone kind').1
    · exact (hnone kind').2
  obtain ⟨call, hcall, hfields⟩ : ∃ call, first? source = .ok (some call) ∧
      some (call.name, call.strayTokens) = some ("a.x", 3) :=
    exists_first?_of_bind (by decide +kernel)
  obtain ⟨hname, hstray⟩ := Prod.mk.inj (Option.some.inj hfields)
  obtain ⟨haccepted, _, hfrom⟩ := (first?_accepts_grammar htokens).2 2 .load hstart hfirst
  obtain ⟨c, stop, parent, hwritten⟩ := haccepted.mp ⟨call, hcall⟩
  exact ⟨source, tokens, call, c, stop, parent, rfl, htokens, hstart, hwritten, hcall,
    hfrom call c stop parent hcall hwritten, hname, hstray⟩

end Registration

end Reclass
