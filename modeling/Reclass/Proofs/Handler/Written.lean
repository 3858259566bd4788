import Reclass.Proofs.Handler.Replacement
import Reclass.Proofs.Script.Group
import Reclass.Proofs.Script.Sequence

/-!
# Members as they are written

Every part of a member is cut out of the tokens of the literal: a value is a run of neighbouring
tokens, and so are the parameter list and the body of a method. This file says for each form of a
member which runs these are.
-/

namespace Reclass

open Script

/-- The text of neighbouring tokens as a string. -/
def Token.spanText (tokens : List Token) : String := String.ofList (Token.span tokens)

/-- The text of a single token is its own. -/
theorem Token.spanText_singleton (t : Token) : Token.spanText [t] = t.word := by
  rw [Token.spanText, Token.span_cons, Token.run_nil, List.append_nil, Token.word]

/-- That a run of tokens is a group: from an opening delimiter to the one that closes it, whatever
follows. -/
def IsGroup (opener closer : Char) (tokens : List Token) : Prop :=
  ∃ first inside last, tokens = first :: (inside ++ [last]) ∧ first.lexeme = sign opener ∧
    last.lexeme = sign closer ∧
    ∃ rest, closeGroup first (inside ++ last :: rest) = .ok ⟨inside, last, rest⟩

/-- That some tokens are a parameter list with a text: a group in parentheses as it is written, or a
name to which parentheses are added. -/
inductive IsParameterList : List Token → String → Prop
  | group {tokens : List Token} (h : IsGroup '(' ')' tokens) :
      IsParameterList tokens (Token.spanText tokens)
  | bare {name : Token} (h : name.kind = .ident) :
      IsParameterList [name] ("(" ++ name.word ++ ")")

/-- The tokens of which a member consists besides its key and its modifiers. -/
inductive Contents where
  | value (tokens : List Token)
  | method (params body : List Token)

namespace Member

/-- That the tokens of a member stand for it, and which of them are its contents. -/
inductive WrittenAs : List Token → Member → Contents → Prop
  /-- A name that is key and value at once. -/
  | name {key : Token} {m : Member} (hkey : readKey key = .ok m.key) (hkind : key.kind = .ident)
      (hmethod : m.method = none) (htext : m.text = Token.spanText [key]) :
      WrittenAs [key] m (.value [key])
  /-- A value behind a colon. -/
  | value {key colon : Token} {tokens : List Token} {m : Member} (hkey : readKey key = .ok m.key)
      (hcolon : colon.isPunct ":") (htokens : tokens ≠ []) (hmethod : m.method = none)
      (htext : m.text = Token.spanText tokens) :
      WrittenAs (key :: colon :: tokens) m (.value tokens)
  /-- A function or a method, whose body is a block. -/
  | block {before params body : List Token} {key : Token} {m : Member} {method : Method}
      (hbefore : key ∈ before) (hkey : readKey key = .ok m.key) (hmethod : m.method = some method)
      (hparams : IsParameterList params method.params) (hbody : IsGroup '\x7b' '\x7d' body)
      (htext : method.body = Token.spanText body) (hblock : method.expressionBody = false) :
      WrittenAs (before ++ (params ++ body)) m (.method params body)
  /-- An arrow, whose body is a block or an expression. -/
  | arrow {before params body : List Token} {key arrow : Token} {m : Member} {method : Method}
      (hbefore : key ∈ before) (hkey : readKey key = .ok m.key) (hmethod : m.method = some method)
      (hparams : IsParameterList params method.params) (harrow : arrow.isPunct "=>")
      (hbody : body ≠ []) (htext : method.body = Token.spanText body)
      (hblock : method.expressionBody = false → IsGroup '\x7b' '\x7d' body) :
      WrittenAs (before ++ (params ++ arrow :: body)) m (.method params body)

/-- The key of a member is one of its tokens. -/
theorem WrittenAs.exists_key {segment : List Token} {m : Member} {contents : Contents}
    (h : WrittenAs segment m contents) : ∃ t ∈ segment, readKey t = .ok m.key := by
  cases h with
  | name hkey => exact ⟨_, List.mem_singleton_self _, hkey⟩
  | value hkey => exact ⟨_, List.mem_cons_self, hkey⟩
  | block hbefore hkey => exact ⟨_, List.mem_append_left _ hbefore, hkey⟩
  | arrow hbefore hkey => exact ⟨_, List.mem_append_left _ hbefore, hkey⟩

/-- The group that an opening delimiter opens. -/
private theorem isGroup_of_closeGroup {opener : Token} {tokens : List Token} {group : Closed}
    (h : closeGroup opener tokens = .ok group) :
    ∃ b : Bracket, opener.lexeme = sign b.opener ∧
      IsGroup b.opener b.closer (opener :: (group.inside ++ [group.closer])) ∧
      opener :: tokens = opener :: (group.inside ++ [group.closer]) ++ group.rest := by
  obtain ⟨htokens, b, hopens, hcloses⟩ := closeGroup_eq_ok h
  obtain ⟨hopenKind, hopenText⟩ := Token.opens?_eq_some_iff.mp hopens
  obtain ⟨hcloseKind, hcloseText⟩ := Token.closes?_eq_some_iff.mp hcloses
  have hopener : opener.lexeme = sign b.opener := by rw [Token.lexeme, hopenKind, hopenText]; rfl
  have hcloser : group.closer.lexeme = sign b.closer := by
    rw [Token.lexeme, hcloseKind, hcloseText]; rfl
  refine ⟨b, hopener, ⟨opener, group.inside, group.closer, rfl, hopener, hcloser, group.rest, ?_⟩,
    ?_⟩
  · rw [← htokens]
    exact h
  · rw [htokens]
    simp

/-- A sign of one character as it is tested for. -/
private theorem lexeme_of_isPunct {t : Token} {text : String} {c : Char} (h : t.isPunct text)
    (htext : text.toList = [c]) : t.lexeme = sign c := by
  obtain ⟨hkind, heq⟩ := Token.isPunct_iff.mp h
  rw [Token.lexeme, hkind, heq, htext]
  rfl

private theorem isGroup_round {opener : Token} {tokens : List Token} {group : Closed}
    (hopener : opener.isPunct "(") (h : closeGroup opener tokens = .ok group) :
    IsGroup '(' ')' (opener :: (group.inside ++ [group.closer])) ∧
      opener :: tokens = opener :: (group.inside ++ [group.closer]) ++ group.rest := by
  obtain ⟨b, hb, hgroup, htokens⟩ := isGroup_of_closeGroup h
  rw [lexeme_of_isPunct hopener (c := '(') (by rfl)] at hb
  cases b with
  | round => exact ⟨hgroup, htokens⟩
  | square => exact absurd hb (by decide)
  | curly => exact absurd hb (by decide)

private theorem isGroup_curly {opener : Token} {tokens : List Token} {group : Closed}
    (hopener : opener.isPunct "\x7b") (h : closeGroup opener tokens = .ok group) :
    IsGroup '\x7b' '\x7d' (opener :: (group.inside ++ [group.closer])) ∧
      opener :: tokens = opener :: (group.inside ++ [group.closer]) ++ group.rest := by
  obtain ⟨b, hb, hgroup, htokens⟩ := isGroup_of_closeGroup h
  rw [lexeme_of_isPunct hopener (c := '\x7b') (by rfl)] at hb
  cases b with
  | round => exact absurd hb (by decide)
  | square => exact absurd hb (by decide)
  | curly => exact ⟨hgroup, htokens⟩

/-- A parameter list and a block are two groups at the start of the tokens. -/
theorem readSignature_eq_ok {stop : Nat} {tokens : List Token} {signature : Signature}
    (h : readSignature stop tokens = .ok signature) :
    ∃ params body, tokens = params ++ (body ++ signature.rest) ∧ IsGroup '(' ')' params ∧
      IsGroup '\x7b' '\x7d' body ∧ signature.params = Token.spanText params ∧
      signature.body = Token.spanText body := by
  unfold readSignature at h
  split at h
  · exact absurd h (by simp)
  · next p rest =>
    split at h
    · exact absurd h (by simp)
    · next hp =>
      obtain ⟨params, hparams, h⟩ := Except.bind_eq_ok_iff.mp h
      obtain ⟨hgroup, htokens⟩ := isGroup_round (by simpa using hp) hparams
      split at h
      · exact absurd h (by simp [throw, throwThe, MonadExceptOf.throw])
      · next b after hrest =>
        split at h
        · exact absurd h (by simp [throw, throwThe, MonadExceptOf.throw, bind, Except.bind])
        · next hb =>
          obtain ⟨body, hbody, h⟩ := Except.bind_eq_ok_iff.mp h
          obtain ⟨hblock, htokens'⟩ := isGroup_curly (by simpa using hb) hbody
          cases h
          refine ⟨_, _, ?_, hgroup, hblock, rfl, rfl⟩
          rw [htokens, hrest, htokens']

/-- What is left behind a dropped token is an end of the tokens. -/
theorem dropIf_suffix (test : Token → Bool) (tokens : List Token) :
    ∃ before, tokens = before ++ (dropIf test tokens).2 := by
  cases tokens with
  | nil => exact ⟨[], rfl⟩
  | cons t rest =>
    rw [dropIf]
    split
    · exact ⟨[t], rfl⟩
    · exact ⟨[], rfl⟩

/-- What is left behind the word before a function is an end of the tokens. -/
theorem dropAsyncFunction_suffix (tokens : List Token) :
    ∃ before, tokens = before ++ (dropAsyncFunction tokens).2 := by
  unfold dropAsyncFunction
  split
  · next a f rest =>
    split
    · exact ⟨[a], rfl⟩
    · exact ⟨[], rfl⟩
  · exact ⟨[], rfl⟩

/-- What is left behind the word before an arrow is an end of the tokens. -/
theorem dropAsync_suffix (tokens : List Token) :
    ∃ before, tokens = before ++ (dropAsync tokens).2 := by
  unfold dropAsync
  split
  · next a b c rest =>
    split
    · exact ⟨[a], rfl⟩
    · exact ⟨[], rfl⟩
  · exact ⟨[], rfl⟩

/-- A function ends in its parameter list and a block. -/
theorem readFunction?_eq_some {stop : Nat} {tokens : List Token} {method : Method}
    (h : readFunction? stop tokens = .ok (some method)) :
    ∃ before params body, tokens = before ++ (params ++ body) ∧ IsGroup '(' ')' params ∧
      IsGroup '\x7b' '\x7d' body ∧ method.params = Token.spanText params ∧
      method.body = Token.spanText body ∧ method.expressionBody = false := by
  unfold readFunction? at h
  obtain ⟨before₁, hbefore₁⟩ := dropAsyncFunction_suffix tokens
  generalize dropAsyncFunction tokens = dropped at h hbefore₁
  obtain ⟨isAsync, tokens₁⟩ := dropped
  obtain ⟨before₂, hbefore₂⟩ := dropIf_suffix (·.isIdent "function") tokens₁
  dsimp only at h hbefore₁
  generalize dropIf (·.isIdent "function") tokens₁ = dropped at h hbefore₂
  obtain ⟨isFunction, tokens₂⟩ := dropped
  obtain ⟨before₃, hbefore₃⟩ := dropIf_suffix (·.isPunct "*") tokens₂
  dsimp only at h hbefore₂
  generalize dropIf (·.isPunct "*") tokens₂ = dropped at h hbefore₃
  obtain ⟨isGenerator, tokens₃⟩ := dropped
  obtain ⟨before₄, hbefore₄⟩ := dropIf_suffix (·.kind == .ident) tokens₃
  dsimp only at h hbefore₃
  generalize dropIf (·.kind == .ident) tokens₃ = dropped at h hbefore₄
  obtain ⟨_, tokens₄⟩ := dropped
  dsimp only at h hbefore₄
  split at h
  · exact absurd h (by simp)
  · obtain ⟨signature, hsignature, h⟩ := Except.bind_eq_ok_iff.mp h
    obtain ⟨params, body, htokens, hparams, hbody, hparamsText, hbodyText⟩ :=
      readSignature_eq_ok hsignature
    split at h
    · next hrest =>
      cases h
      rw [List.isEmpty_iff.mp hrest, List.append_nil] at htokens
      refine ⟨before₁ ++ before₂ ++ before₃ ++ before₄, params, body, ?_, hparams, hbody,
        hparamsText, hbodyText, rfl⟩
      rw [hbefore₁, hbefore₂, hbefore₃, hbefore₄, htokens]
      simp
    · cases h

/-- Behind the parameters of an arrow function there are the arrow and the body. -/
private theorem readArrowBody?_eq_some {modifier : Modifier} {params : String}
    {tokens : List Token} {method : Method}
    (h : readArrowBody? modifier params tokens = .ok (some method)) :
    ∃ arrow body, tokens = arrow :: body ∧ arrow.isPunct "=>" ∧ body ≠ [] ∧
      method.params = params ∧ method.body = Token.spanText body ∧
      (method.expressionBody = false → IsGroup '\x7b' '\x7d' body) := by
  unfold readArrowBody? at h
  split at h
  · exact absurd h (by simp)
  · next arrow body =>
    split at h
    · exact absurd h (by simp)
    · next harrow =>
      split at h
      · exact absurd h (by simp)
      · next head rest =>
        dsimp only at h
        split at h
        · next hhead =>
          obtain ⟨isBlock, hisBlock, h⟩ := Except.bind_eq_ok_iff.mp h
          obtain ⟨group, hgroup, hrest⟩ := Except.map_eq_ok_iff.mp hisBlock
          obtain ⟨hisGroup, htokens⟩ := isGroup_curly hhead hgroup
          cases h
          refine ⟨arrow, head :: rest, rfl, by simpa using harrow, by simp, rfl, rfl, ?_⟩
          intro hblock
          have hempty : group.rest = [] := by simpa [← hrest] using hblock
          rw [hempty, List.append_nil] at htokens
          rwa [htokens]
        · cases h
          exact ⟨arrow, head :: rest, rfl, by simpa using harrow, by simp, rfl, rfl, by simp⟩

/-- An arrow function is a parameter list, the arrow and the body, perhaps behind `async`. -/
theorem readArrow?_eq_some {tokens : List Token} {method : Method}
    (h : readArrow? tokens = .ok (some method)) :
    ∃ before params arrow body, tokens = before ++ (params ++ arrow :: body) ∧
      IsParameterList params method.params ∧ arrow.isPunct "=>" ∧ body ≠ [] ∧
      method.body = Token.spanText body ∧
      (method.expressionBody = false → IsGroup '\x7b' '\x7d' body) := by
  unfold readArrow? at h
  obtain ⟨before, hbefore⟩ := dropAsync_suffix tokens
  generalize dropAsync tokens = dropped at h hbefore
  obtain ⟨isAsync, tokens'⟩ := dropped
  dsimp only at h hbefore
  split at h
  · exact absurd h (by simp)
  · next p rest =>
    split at h
    · next hp =>
      obtain ⟨params, hparams, h⟩ := Except.bind_eq_ok_iff.mp h
      obtain ⟨hgroup, htokens⟩ := isGroup_round hp hparams
      obtain ⟨arrow, body, hrest, harrow, hbody, hparamsText, hbodyText, hblock⟩ :=
        readArrowBody?_eq_some h
      refine ⟨before, p :: (params.inside ++ [params.closer]), arrow, body, ?_, ?_, harrow, hbody,
        hbodyText, hblock⟩
      · rw [hbefore, htokens, hrest]
      · rw [hparamsText]
        exact .group hgroup
    · split at h
      · next hkind =>
        obtain ⟨arrow, body, hrest, harrow, hbody, hparamsText, hbodyText, hblock⟩ :=
          readArrowBody?_eq_some h
        refine ⟨before, [p], arrow, body, ?_, ?_, harrow, hbody, hbodyText, hblock⟩
        · rw [hbefore, hrest]
          rfl
        · rw [hparamsText]
          exact .bare hkind
      · exact absurd h (by simp)

/-- A key, a colon, and a value that is a function or an arrow. -/
private theorem writtenAs_of_readMethod? {stop : Nat} {key colon : Token} {tokens : List Token}
    {m : Member} {method : Method} (hkey : readKey key = .ok m.key)
    (hmethod : m.method = some method) (h : readMethod? stop tokens = .ok (some method)) :
    ∃ contents, WrittenAs (key :: colon :: tokens) m contents := by
  obtain ⟨function?, hfunction, h⟩ := Except.bind_eq_ok_iff.mp h
  cases function? with
  | some function =>
    cases h
    obtain ⟨before, params, body, rfl, hparams, hbody, hparamsText, hbodyText, hblock⟩ :=
      readFunction?_eq_some hfunction
    have hsplit : key :: colon :: (before ++ (params ++ body)) =
        key :: colon :: before ++ (params ++ body) := rfl
    rw [hsplit]
    refine ⟨_, .block List.mem_cons_self hkey hmethod ?_ hbody hbodyText hblock⟩
    rw [hparamsText]
    exact .group hparams
  | none =>
    obtain ⟨before, params, arrow, body, rfl, hparams, harrow, hbody, hbodyText, hblock⟩ :=
      readArrow?_eq_some h
    have hsplit : key :: colon :: (before ++ (params ++ arrow :: body)) =
        key :: colon :: before ++ (params ++ arrow :: body) := rfl
    rw [hsplit]
    exact ⟨_, .arrow List.mem_cons_self hkey hmethod hparams harrow hbody hbodyText hblock⟩

/-- A key that is a name stands in a name token. -/
theorem readKey_ident {t : Token} {key : PropertyKey} (h : readKey t = .ok key)
    (hform : key.form = .ident) : t.kind = .ident ∧ key.raw = t.word := by
  unfold readKey at h
  split at h
  · next hkind =>
    cases h
    exact ⟨hkind, rfl⟩
  · cases h
    exact absurd hform (by simp)
  · cases h
    exact absurd hform (by simp)
  · exact absurd h (by simp)

/-- What is read as a member from its tokens: a name that stands for itself, a value behind a colon,
or a method without colon, with the tokens of its modifier before the key. -/
inductive ReadFrom (first : Token) (others : List Token) : Member → Prop
  | name {key : PropertyKey} (hothers : others = []) (hkey : readKey first = .ok key)
      (hform : key.form = .ident) : ReadFrom first others ⟨key, none, key.raw, first.start⟩
  | value {key : PropertyKey} {colon : Token} {tokens : List Token} {method? : Option Method}
      (hothers : others = colon :: tokens) (hkey : readKey first = .ok key)
      (hcolon : colon.isPunct ":") (htokens : tokens ≠ [])
      (hmethod : readMethod? (Token.lastStop colon tokens) tokens = .ok method?) :
      ReadFrom first others ⟨key, method?, Token.spanText tokens, first.start⟩
  | shorthand {before rest : List Token} {t : Token} {modifier : Modifier} {key : PropertyKey}
      {signature : Signature} (htokens : first :: others = before ++ t :: rest)
      (hkey : readKey t = .ok key)
      (hsignature : readSignature (Token.lastStop first others) rest = .ok signature)
      (hrest : signature.rest = []) :
      ReadFrom first others ⟨key, some ⟨modifier, signature.params, signature.body, false⟩,
        Token.spanText (first :: others), t.start⟩

private theorem readFrom_of_readShorthand {first : Token} {others tokens : List Token}
    {modifier : Modifier} {m : Member} (before : List Token)
    (hsegment : first :: others = before ++ tokens)
    (h : readShorthand first others modifier tokens = .ok m) : ReadFrom first others m := by
  unfold readShorthand at h
  cases tokens with
  | nil => exact absurd h (by simp)
  | cons t rest =>
    obtain ⟨key, hkey, h⟩ := Except.bind_eq_ok_iff.mp h
    obtain ⟨signature, hsignature, h⟩ := Except.bind_eq_ok_iff.mp h
    cases hrest : signature.rest with
    | cons extra _ =>
      rw [hrest] at h
      exact absurd h (by simp [throw, throwThe, MonadExceptOf.throw])
    | nil =>
      rw [hrest] at h
      cases h
      exact .shorthand hsegment hkey hsignature hrest

private theorem readFrom_of_readPlain {first : Token} {others : List Token} {m : Member}
    (h : readPlain first others = .ok m) : ReadFrom first others m := by
  unfold readPlain at h
  obtain ⟨key, hkey, h⟩ := Except.bind_eq_ok_iff.mp h
  split at h
  · split at h
    · next hform =>
      cases h
      exact .name rfl hkey hform
    · cases h
  · next t value =>
    split at h
    · next hcolon =>
      split at h
      · cases h
      · next hvalue =>
        obtain ⟨method?, hmethod, h⟩ := Except.bind_eq_ok_iff.mp h
        cases h
        exact .value rfl hkey hcolon (by simpa using hvalue) hmethod
    · split at h
      · exact readFrom_of_readShorthand [] rfl h
      · cases h

/-- Every member is read from its tokens in one of three ways. -/
theorem readFrom_of_read {first : Token} {others : List Token} {m : Member}
    (h : read first others = .ok m) : ReadFrom first others m := by
  unfold read at h
  split at h
  · exact absurd h (by simp)
  split at h
  · exact absurd h (by simp)
  split at h
  · exact readFrom_of_readShorthand [first] rfl h
  split at h
  · next second third rest =>
    split at h
    · exact readFrom_of_readShorthand [first] rfl h
    · split at h
      · exact readFrom_of_readShorthand [first, second] rfl h
      · exact readFrom_of_readPlain h
  · next second =>
    split at h
    · exact readFrom_of_readShorthand [first, second] rfl h
    · exact readFrom_of_readPlain h
  · exact readFrom_of_readPlain h

/-- Every member stands in its tokens. -/
theorem read_eq_ok {first : Token} {others : List Token} {m : Member}
    (h : read first others = .ok m) : ∃ contents, WrittenAs (first :: others) m contents := by
  cases readFrom_of_read h with
  | name hothers hkey hform =>
    obtain ⟨hkind, hraw⟩ := readKey_ident hkey hform
    subst hothers
    refine ⟨_, .name hkey hkind rfl ?_⟩
    rw [hraw, Token.spanText_singleton]
  | @value key colon tokens method? hothers hkey hcolon htokens hmethod =>
    subst hothers
    cases method? with
    | none => exact ⟨_, .value hkey hcolon htokens rfl rfl⟩
    | some method => exact writtenAs_of_readMethod? hkey rfl hmethod
  | @shorthand before rest t modifier key signature hsplit hkey hsignature hrest =>
    obtain ⟨params, body, rfl, hparams, hbody, hparamsText, hbodyText⟩ :=
      readSignature_eq_ok hsignature
    have hsegment : first :: others = (before ++ [t]) ++ (params ++ body) := by
      rw [hsplit, hrest]
      simp
    rw [hsegment]
    refine ⟨_, .block (by simp) hkey rfl ?_ hbody hbodyText rfl⟩
    rw [hparamsText]
    exact .group hparams

/-! ### The members of a literal -/

/-- What is cut off at a comma is a run at the start of the tokens. -/
theorem cutAtComma_append (depth : Nat) (tokens : List Token) :
    ∃ comma, tokens = (cutAtComma depth tokens).1 ++ (comma ++ (cutAtComma depth tokens).2) := by
  induction tokens generalizing depth with
  | nil => exact ⟨[], rfl⟩
  | cons t rest ih =>
    rw [cutAtComma]
    split
    · exact ⟨[t], rfl⟩
    · dsimp only
      obtain ⟨comma, hcomma⟩ := ih
        (if t.opens?.isSome then depth + 1 else if t.closes?.isSome then depth - 1 else depth)
      exact ⟨comma, by rw [List.cons_append, ← hcomma]⟩

/-- Every member that is written in a literal is read from a run of its tokens. -/
theorem writtenAs_of_mem_readEach {tokens : List Token} {written : List Member}
    (h : readEach tokens = .ok written) {m : Member} (hm : m ∈ written) :
    ∃ first others contents, first :: others <:+: tokens ∧ read first others = .ok m ∧
      WrittenAs (first :: others) m contents := by
  fun_induction readEach tokens generalizing written with
  | case1 =>
    cases h
    simp at hm
  | case2 => exact absurd h (by simp)
  | case3 t rest first others after hcut ih =>
    obtain ⟨m', hm', h⟩ := Except.bind_eq_ok_iff.mp h
    obtain ⟨written', hwritten', rfl⟩ := Except.map_eq_ok_iff.mp h
    obtain ⟨comma, hsplit⟩ := cutAtComma_append 0 (t :: rest)
    rw [hcut] at hsplit
    rcases List.mem_cons.mp hm with rfl | hm
    · have hread := (readOne_eq_ok_iff.mp hm').1
      obtain ⟨contents, hcontents⟩ := read_eq_ok hread
      refine ⟨first, others, contents, ?_, hread, hcontents⟩
      rw [hsplit]
      exact (List.prefix_append _ _).isInfix
    · obtain ⟨first', others', contents, hsegment, hcontents⟩ := ih hwritten' hm
      refine ⟨first', others', contents, hsegment.trans ?_, hcontents⟩
      rw [hsplit]
      exact (List.suffix_append_of_suffix (List.suffix_append _ _)).isInfix

/-- Inserting keeps only members that were there. -/
theorem mem_of_mem_insertAll {written : List Member} {m : Member} (h : m ∈ insertAll written) :
    m ∈ written := by
  obtain ⟨i, hi, _⟩ := mem_insertAll_iff.mp h
  exact List.mem_of_getElem? hi

/-- Every member of a literal is read from a run of its tokens. -/
theorem writtenAs_of_mem_ofBody {body : List Token} {members : List Member}
    (h : ofBody body = .ok members) {m : Member} (hm : m ∈ members) :
    ∃ first others contents, first :: others <:+: body ∧ read first others = .ok m ∧
      WrittenAs (first :: others) m contents := by
  obtain ⟨written, hwritten, rfl⟩ := ofBody_eq_ok_iff.mp h
  exact writtenAs_of_mem_readEach hwritten (mem_of_mem_insertAll hm)

end Member

end Reclass
