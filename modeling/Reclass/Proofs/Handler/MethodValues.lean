import Reclass.Proofs.Handler.Written
import Reclass.Proofs.Script.Tiling

/-!
# Values that are methods

A value behind a colon is a method when it is one function or one arrow function. This file says
which token lists these are, without the way in which they are read, and that exactly these are
found: as they are written, and with nothing behind them. A value that starts like a function must
go on like one, and an arrow function must have a body.
-/

namespace Reclass

open Script

/-- A run of tokens that is a group is one of the pair of its delimiters. -/
theorem IsGroup.isGroupOf {b : Bracket} {tokens : List Token}
    (h : IsGroup b.opener b.closer tokens) : IsGroupOf b tokens := by
  obtain ⟨first, inside, last, rfl, hfirst, _, rest, hclosed⟩ := h
  obtain ⟨hkind, htext⟩ : first.kind = .punct ∧ first.text = [b.opener] := by
    simpa [Token.lexeme, sign] using hfirst
  exact (IsGroupOf.of_closeGroup (Token.opens?_eq_some_iff.mpr ⟨hkind, htext⟩) hclosed).1

namespace Member

/-- That some tokens are one token for which a test holds, or that this token is left out. -/
inductive Optionally (test : Token → Bool) : Bool → List Token → Prop
  | leftOut : Optionally test false []
  | there {t : Token} (h : test t) : Optionally test true [t]

/-- That some tokens are the words before the parameters of a function: `async`, the word
`function`, a star and a name. All but the second may be left out. -/
inductive FunctionHead : Bool → Bool → List Token → Prop
  | intro {isAsync isGenerator isNamed : Bool} {async star name : List Token} {word : Token}
      (hasync : Optionally (·.isIdent "async") isAsync async) (hword : word.isIdent "function")
      (hstar : Optionally (·.isPunct "*") isGenerator star)
      (hname : Optionally (·.kind == .ident) isNamed name) :
      FunctionHead isAsync isGenerator (async ++ word :: (star ++ name))

/-- That some tokens are what stands before an arrow, perhaps `async` and then a group in
parentheses or one name, and the parameter list that it stands for. -/
inductive ArrowHead : Bool → String → List Token → Prop
  | group {isAsync : Bool} {async params : List Token}
      (hasync : Optionally (·.isIdent "async") isAsync async) (hparams : IsGroupOf .round params) :
      ArrowHead isAsync (Token.spanText params) (async ++ params)
  | name {isAsync : Bool} {async : List Token} {name : Token}
      (hasync : Optionally (·.isIdent "async") isAsync async) (hname : name.kind = .ident)
      (hword : ¬name.isIdent "function") :
      ArrowHead isAsync ("(" ++ name.word ++ ")") (async ++ [name])

/-- That some tokens are a value that is a method: a function with a block at its end, or an arrow
function. -/
inductive WritesMethod : List Token → Method → Prop
  | function {isAsync isGenerator : Bool} {head params body : List Token}
      (hhead : FunctionHead isAsync isGenerator head) (hparams : IsGroupOf .round params)
      (hbody : IsGroupOf .curly body) :
      WritesMethod (head ++ (params ++ body))
        ⟨functionModifier isAsync isGenerator, Token.spanText params, Token.spanText body, false⟩
  | arrow {isAsync expressionBody : Bool} {params : String} {head body : List Token} {arrow : Token}
      (hhead : ArrowHead isAsync params head) (harrow : arrow.isPunct "=>") (hbody : body ≠ [])
      (hexpression : expressionBody = true ↔ ¬IsGroupOf .curly body) :
      WritesMethod (head ++ arrow :: body)
        ⟨functionModifier isAsync false, params, Token.spanText body, expressionBody⟩

/-- That some tokens start like a function, and that no parameter list with the start of a block
stands behind its words. -/
structure LacksBlock (value : List Token) : Prop where
  starts : ∃ isAsync isGenerator head rest, FunctionHead isAsync isGenerator head ∧
    value = head ++ rest
  lacks : ∀ {isAsync isGenerator : Bool} {head params rest : List Token} {brace : Token},
    FunctionHead isAsync isGenerator head → IsGroupOf .round params → brace.isPunct "\x7b" →
      value ≠ head ++ (params ++ brace :: rest)

/-- That some tokens are an arrow function without a body. -/
def LacksBody (value : List Token) : Prop :=
  ∃ isAsync params head arrow, ArrowHead isAsync params head ∧ arrow.isPunct "=>" ∧
    value = head ++ [arrow]

/-- That some tokens start with the word `async` and an arrow. -/
def StartsAsyncArrow (value : List Token) : Prop :=
  ∃ async arrow rest, value = async :: arrow :: rest ∧ async.isIdent "async" ∧ arrow.isPunct "=>"

/-! ### Parameter list and block -/

/-- A parameter list and a block are read exactly where they stand. -/
theorem readSignature_eq_ok_iff {stop : Nat} {tokens : List Token} {signature : Signature} :
    readSignature stop tokens = .ok signature ↔
      ∃ params body, tokens = params ++ (body ++ signature.rest) ∧ IsGroupOf .round params ∧
        IsGroupOf .curly body ∧ signature.params = Token.spanText params ∧
        signature.body = Token.spanText body := by
  constructor
  · intro h
    obtain ⟨params, body, htokens, hparams, hbody, hparamsText, hbodyText⟩ := readSignature_eq_ok h
    exact ⟨params, body, htokens, IsGroup.isGroupOf (b := .round) hparams,
      IsGroup.isGroupOf (b := .curly) hbody, hparamsText, hbodyText⟩
  · rintro ⟨params, body, rfl, hparams, hbody, hparamsText, hbodyText⟩
    obtain ⟨p, inside, closer, rfl, hp, hgroup⟩ := hparams.closeGroup_eq
    obtain ⟨b, inside', closer', rfl, hb, hblock⟩ := hbody.closeGroup_eq
    have hp : p.isPunct "(" := Token.isPunct_iff.mpr (Token.opens?_eq_some_iff.mp hp)
    have hb : b.isPunct "\x7b" := Token.isPunct_iff.mpr (Token.opens?_eq_some_iff.mp hb)
    obtain ⟨_, _, rest⟩ := signature
    simp only at hparamsText hbodyText
    simp [readSignature, hp, hb, hgroup, hblock, hparamsText, hbodyText, Token.spanText, bind,
      Except.bind, pure, Except.pure]

/-- Balanced tokens that start with a parameter list and the start of a block hold this block. -/
theorem exists_readSignature (stop : Nat) {params rest : List Token} {brace : Token}
    (hparams : IsGroupOf .round params) (hbrace : brace.isPunct "\x7b")
    (h : Balanced (brace :: rest)) :
    ∃ signature, readSignature stop (params ++ brace :: rest) = .ok signature := by
  obtain ⟨body, after, hsplit, hbody⟩ :=
    h.exists_group (b := .curly) (Token.opens?_eq_some_iff.mpr (Token.isPunct_iff.mp hbrace))
  rw [hsplit]
  exact ⟨⟨_, _, after⟩, readSignature_eq_ok_iff.mpr ⟨params, body, rfl, hparams, hbody, rfl, rfl⟩⟩

/-! ### Optional tokens -/

/-- A token that may be left out is found where it stands. -/
theorem dropIf_of_optionally {test : Token → Bool} {present : Bool} {tokens rest : List Token}
    (h : Optionally test present tokens) (hrest : ∀ t ∈ rest.head?, test t = false) :
    dropIf test (tokens ++ rest) = (present, rest) := by
  cases h with
  | there h => simp [dropIf, h]
  | leftOut =>
    cases rest with
    | nil => rfl
    | cons t rest =>
      have ht := hrest t rfl
      simp [dropIf, ht]

/-- Dropping a token when it passes a test takes off that token, or nothing. -/
theorem exists_optionally_dropIf (test : Token → Bool) (tokens : List Token) :
    ∃ token, Optionally test (dropIf test tokens).1 token ∧
      tokens = token ++ (dropIf test tokens).2 := by
  cases tokens with
  | nil => exact ⟨[], .leftOut, rfl⟩
  | cons t rest =>
    rw [dropIf]
    split
    · next h => exact ⟨[t], .there h, rfl⟩
    · exact ⟨[], .leftOut, rfl⟩

/-- No word is another one. -/
theorem isIdent_eq_false {t : Token} {text : String} (h : t.isIdent text) (other : String)
    (hne : text.toList ≠ other.toList) : t.isIdent other = false := by
  obtain ⟨_, htext⟩ := Token.isIdent_iff.mp h
  simp [Token.isIdent, htext, hne]

/-- The word `function` is found, and `async` before it. -/
theorem dropAsyncFunction_of_optionally {isAsync : Bool} {async rest : List Token} {word : Token}
    (h : Optionally (·.isIdent "async") isAsync async) (hword : word.isIdent "function") :
    dropAsyncFunction (async ++ word :: rest) = (isAsync, word :: rest) := by
  cases h with
  | there h => simp [dropAsyncFunction, h, hword]
  | leftOut =>
    have hasync := isIdent_eq_false hword "async" (by decide)
    cases rest <;> simp [dropAsyncFunction, hasync]

/-- Before a function, the word `async` is taken off when it stands there. -/
theorem exists_optionally_dropAsyncFunction (tokens : List Token) :
    ∃ async, Optionally (·.isIdent "async") (dropAsyncFunction tokens).1 async ∧
      tokens = async ++ (dropAsyncFunction tokens).2 := by
  unfold dropAsyncFunction
  split
  · next a f rest =>
    split
    · next h => exact ⟨[a], .there (by simp_all), rfl⟩
    · exact ⟨[], .leftOut, rfl⟩
  · exact ⟨[], .leftOut, rfl⟩

/-- The word `async` is found before an arrow function, which has at least two more tokens. -/
theorem dropAsync_of_optionally {isAsync : Bool} {async rest : List Token} {p q : Token}
    (h : Optionally (·.isIdent "async") isAsync async) (hp : async = [] → ¬p.isIdent "async") :
    dropAsync (async ++ p :: q :: rest) = (isAsync, p :: q :: rest) := by
  cases h with
  | there h => simp [dropAsync, h]
  | leftOut =>
    have hasync := hp rfl
    cases rest <;> simp [dropAsync, hasync]

/-- Before an arrow, the word `async` is taken off when it stands there. -/
theorem exists_optionally_dropAsync (tokens : List Token) :
    ∃ async, Optionally (·.isIdent "async") (dropAsync tokens).1 async ∧
      tokens = async ++ (dropAsync tokens).2 := by
  unfold dropAsync
  split
  · next a b c rest =>
    split
    · next h => exact ⟨[a], .there h, rfl⟩
    · exact ⟨[], .leftOut, rfl⟩
  · exact ⟨[], .leftOut, rfl⟩

/-! ### The tokens before parameters -/

/-- What may be left out passes its test when it is there. -/
theorem Optionally.forall {test : Token → Bool} {present : Bool} {tokens : List Token}
    (h : Optionally test present tokens) : ∀ t ∈ tokens, test t := by
  cases h with
  | leftOut => simp
  | there h => simpa using h

/-- A word that may be left out has no open groups. -/
theorem Optionally.balanced {present : Bool} {async : List Token} {text : String}
    (h : Optionally (·.isIdent text) present async) : Balanced async :=
  balanced_of_forall fun t ht => not_delimiter_of_ident (Token.isIdent_iff.mp (h.forall t ht)).1

/-- The words before the parameters of a function have no open groups. -/
theorem FunctionHead.balanced {isAsync isGenerator : Bool} {head : List Token}
    (h : FunctionHead isAsync isGenerator head) : Balanced head := by
  obtain ⟨hasync, hword, hstar, hname⟩ := h
  refine hasync.balanced.append (.plain ?_ ?_ (Balanced.append ?_ ?_))
  · exact (not_delimiter_of_ident (Token.isIdent_iff.mp hword).1).1
  · exact (not_delimiter_of_ident (Token.isIdent_iff.mp hword).1).2
  · exact balanced_of_forall fun t ht => not_delimiter_of_isPunct (hstar.forall t ht)
      fun b => by cases b <;> decide
  · exact balanced_of_forall fun t ht => not_delimiter_of_ident (by simpa using hname.forall t ht)

/-- What stands before an arrow has no open groups. -/
theorem ArrowHead.balanced {isAsync : Bool} {params : String} {head : List Token}
    (h : ArrowHead isAsync params head) : Balanced head := by
  cases h with
  | group hasync hparams => exact hasync.balanced.append hparams.balanced
  | name hasync hname =>
    obtain ⟨hopens, hcloses⟩ := not_delimiter_of_ident hname
    exact hasync.balanced.append (.plain hopens hcloses .nil)

/-! ### Functions -/

/-- The method that a parameter list and a block make, when nothing follows them. -/
def methodOf? (modifier : Modifier) (signature : Signature) : Option Method :=
  if signature.rest.isEmpty then some ⟨modifier, signature.params, signature.body, false⟩ else none

/-- Behind the words of a function its parameter list and its block are read. -/
theorem readFunction?_of_head {stop : Nat} {isAsync isGenerator : Bool} {head rest : List Token}
    (h : FunctionHead isAsync isGenerator head)
    (hrest : ∀ t ∈ rest.head?, t.kind = .punct ∧ t.isPunct "*" = false) :
    readFunction? stop (head ++ rest) =
      (readSignature stop rest).map (methodOf? (functionModifier isAsync isGenerator)) := by
  rcases h with @⟨_, async, star, name, word, hasync, hword, hstar, hname⟩
  have hasNoName : ∀ t ∈ rest.head?, (t.kind == .ident) = false := fun t ht => by
    simp [(hrest t ht).1]
  have hasNoStar : ∀ t ∈ (name ++ rest).head?, t.isPunct "*" = false := by
    cases hname with
    | leftOut => exact fun t ht => (hrest t ht).2
    | there h => simp_all [Token.isPunct]
  have hwordDropped : dropIf (·.isIdent "function") (word :: (star ++ (name ++ rest))) =
      (true, star ++ (name ++ rest)) := by
    simp [dropIf, hword]
  simp only [readFunction?, List.append_assoc, List.cons_append,
    dropAsyncFunction_of_optionally hasync hword, hwordDropped,
    dropIf_of_optionally hstar hasNoStar, dropIf_of_optionally hname hasNoName]
  cases readSignature stop rest with
  | error e => rfl
  | ok signature =>
    simp only [bind, Except.bind, pure, Except.pure, Except.map, methodOf?]
    cases signature.rest.isEmpty <;> rfl

/-- A value starts with the words of a function, behind which a parameter list and a block are read,
or it is no function. -/
theorem readFunction?_cases (stop : Nat) (value : List Token) :
    (readFunction? stop value = .ok none ∧ ∀ isAsync isGenerator head rest,
        FunctionHead isAsync isGenerator head → value ≠ head ++ rest) ∨
      ∃ isAsync isGenerator head rest, FunctionHead isAsync isGenerator head ∧
        value = head ++ rest ∧ readFunction? stop value =
          (readSignature stop rest).map (methodOf? (functionModifier isAsync isGenerator)) := by
  obtain ⟨async, hasync, hvalue⟩ := exists_optionally_dropAsyncFunction value
  by_cases hword : ∃ word rest, (dropAsyncFunction value).2 = word :: rest ∧ word.isIdent "function"
  · obtain ⟨word, rest, hbehind, hword⟩ := hword
    obtain ⟨star, hstar, hrest⟩ := exists_optionally_dropIf (·.isPunct "*") rest
    obtain ⟨name, hname, hrest'⟩ :=
      exists_optionally_dropIf (·.kind == .ident) (dropIf (·.isPunct "*") rest).2
    refine .inr ⟨_, _, _, (dropIf (·.kind == .ident) (dropIf (·.isPunct "*") rest).2).2,
      .intro hasync hword hstar hname, ?_, ?_⟩
    · rw [List.append_assoc, List.cons_append, List.append_assoc, ← hrest', ← hrest, ← hbehind,
        ← hvalue]
    · have hwordDropped : dropIf (·.isIdent "function") (word :: rest) = (true, rest) := by
        simp [dropIf, hword]
      simp only [readFunction?, hbehind, hwordDropped]
      cases readSignature stop _ with
      | error e => rfl
      | ok signature =>
        simp only [bind, Except.bind, pure, Except.pure, Except.map, methodOf?]
        cases signature.rest.isEmpty <;> rfl
  · refine .inl ⟨?_, ?_⟩
    · cases hbehind : (dropAsyncFunction value).2 with
      | nil => simp [readFunction?, hbehind, dropIf]
      | cons word rest =>
        have hnot : ¬word.isIdent "function" := fun h => hword ⟨word, rest, hbehind, h⟩
        simp [readFunction?, hbehind, dropIf, hnot]
    · rintro _ _ _ rest ⟨hasync', hword', _, _⟩ rfl
      rw [List.append_assoc, List.cons_append, dropAsyncFunction_of_optionally hasync' hword']
        at hword
      exact hword ⟨_, _, rfl, hword'⟩

/-! ### Arrow functions -/

/-- Behind what stands before an arrow the body is read. -/
theorem readArrow?_of_head {isAsync : Bool} {params : String} {head body : List Token}
    {arrow : Token} (h : ArrowHead isAsync params head) (harrow : arrow.isPunct "=>")
    (hstart : ¬StartsAsyncArrow (head ++ arrow :: body)) :
    readArrow? (head ++ arrow :: body) =
      readArrowBody? (functionModifier isAsync false) params (arrow :: body) := by
  cases h with
  | @group async params hasync hparams =>
    obtain ⟨p, inside, closer, rfl, hopens, hgroup⟩ := hparams.closeGroup_eq
    obtain ⟨hkind, htext⟩ := Token.opens?_eq_some_iff.mp hopens
    have hp : p.isPunct "(" := Token.isPunct_iff.mpr ⟨hkind, htext⟩
    have hdropped : dropAsync (async ++ p :: (inside ++ closer :: arrow :: body)) =
        (isAsync, p :: (inside ++ closer :: arrow :: body)) := by
      have hnot : ¬p.isIdent "async" := by simp [Token.isIdent, hkind]
      cases inside with
      | nil => exact dropAsync_of_optionally hasync fun _ => hnot
      | cons q inside => exact dropAsync_of_optionally hasync fun _ => hnot
    simp only [readArrow?, List.append_assoc, List.cons_append, List.nil_append, hdropped, hp,
      if_true, hgroup]
    rfl
  | @name async name hasync hname _ =>
    have hdropped : dropAsync (async ++ name :: arrow :: body) = (isAsync, name :: arrow :: body) :=
      dropAsync_of_optionally hasync fun hnil hname =>
        hstart ⟨name, arrow, body, by simp [hnil], hname, harrow⟩
    have hnot : name.isPunct "(" = false := by simp [Token.isPunct, hname]
    simp [readArrow?, hdropped, hnot, hname]

/-- A balanced value starts with an arrow function, or it is none, unless it starts with the words
of a function. -/
theorem readArrow?_cases {value : List Token} (h : Balanced value)
    (hfunction : ∀ isAsync isGenerator head arrow rest, FunctionHead isAsync isGenerator head →
      arrow.isPunct "=>" → value ≠ head ++ arrow :: rest) :
    readArrow? value = .ok none ∨
      ∃ isAsync params head arrow body, ArrowHead isAsync params head ∧ arrow.isPunct "=>" ∧
        value = head ++ arrow :: body ∧ readArrow? value =
          readArrowBody? (functionModifier isAsync false) params (arrow :: body) := by
  obtain ⟨async, hasync, hvalue⟩ := exists_optionally_dropAsync value
  -- Without an arrow behind the parameters there is no arrow function.
  have hnoArrow (modifier : Modifier) (params : String) (rest : List Token)
      (hrest : ∀ arrow body, rest = arrow :: body → ¬arrow.isPunct "=>") :
      readArrowBody? modifier params rest = .ok none := by
    cases rest with
    | nil => rfl
    | cons arrow body => simp [readArrowBody?, hrest arrow body rfl]
  cases hbehind : (dropAsync value).2 with
  | nil => exact .inl (by simp [readArrow?, hbehind])
  | cons p rest =>
    rw [hbehind] at hvalue
    by_cases hp : p.isPunct "("
    · have hbalanced : Balanced (p :: rest) := hasync.balanced.of_append (hvalue ▸ h)
      have hopens : p.opens? = some .round :=
        Token.opens?_eq_some_iff.mpr (Token.isPunct_iff.mp hp)
      obtain ⟨group, hgroup, _⟩ := hbalanced.exists_closeGroup hopens
      obtain ⟨hparams, hsplit⟩ := IsGroupOf.of_closeGroup hopens hgroup
      have hread : readArrow? value =
          readArrowBody? (functionModifier (dropAsync value).1 false)
            (Token.spanText (p :: (group.inside ++ [group.closer]))) group.rest := by
        simp only [readArrow?, hbehind, hp, if_true, hgroup]
        rfl
      by_cases harrow : ∃ arrow body, group.rest = arrow :: body ∧ arrow.isPunct "=>"
      · obtain ⟨arrow, body, hrest, harrow⟩ := harrow
        rw [hrest] at hsplit hread
        refine .inr ⟨_, _, _, arrow, body, .group hasync hparams, harrow, ?_, hread⟩
        rw [List.append_assoc, ← hsplit, ← hvalue]
      · refine .inl (hread.trans (hnoArrow _ _ _ fun arrow body hrest harrow' => ?_))
        exact harrow ⟨arrow, body, hrest, harrow'⟩
    · by_cases hkind : p.kind = .ident
      · have hread : readArrow? value =
            readArrowBody? (functionModifier (dropAsync value).1 false) ("(" ++ p.word ++ ")")
              rest := by
          simp [readArrow?, hbehind, hp, hkind]
        by_cases harrow : ∃ arrow body, rest = arrow :: body ∧ arrow.isPunct "=>"
        · obtain ⟨arrow, body, rfl, harrow⟩ := harrow
          have hsplit : value = async ++ [p] ++ arrow :: body := by simpa using hvalue
          have hword : ¬p.isIdent "function" := fun hword =>
            hfunction _ _ _ arrow body (.intro hasync hword .leftOut .leftOut) harrow
              (by simpa using hsplit)
          exact .inr ⟨_, _, _, arrow, body, .name hasync hkind hword, harrow, hsplit, hread⟩
        · refine .inl (hread.trans (hnoArrow _ _ _ fun arrow body hrest harrow' => ?_))
          exact harrow ⟨arrow, body, hrest, harrow'⟩
      · exact .inl (by simp [readArrow?, hbehind, hp, hkind])

/-- The body of an arrow function is a block when it is one group in braces. -/
theorem readArrowBody?_of_balanced (modifier : Modifier) (params : String) {arrow : Token}
    {body : List Token} (harrow : arrow.isPunct "=>") (hbody : body ≠ []) (h : Balanced body) :
    ∃ expressionBody, (expressionBody = true ↔ ¬IsGroupOf .curly body) ∧
      readArrowBody? modifier params (arrow :: body) =
        .ok (some ⟨modifier, params, Token.spanText body, expressionBody⟩) := by
  obtain ⟨first, rest, rfl⟩ := List.exists_cons_of_ne_nil hbody
  by_cases hbrace : first.isPunct "\x7b"
  · have hopens : first.opens? = some .curly :=
      Token.opens?_eq_some_iff.mpr (Token.isPunct_iff.mp hbrace)
    obtain ⟨group, hgroup, _⟩ := h.exists_closeGroup hopens
    have hblock : IsGroupOf .curly (first :: rest) ↔ group.rest = [] := by
      constructor
      · intro hwhole
        obtain ⟨_, inside, closer, hsplit, _, hclosed⟩ := hwhole.closeGroup_eq
        cases hsplit
        rw [hclosed []] at hgroup
        cases hgroup
        rfl
      · intro hrest
        obtain ⟨hwhole, hsplit⟩ := IsGroupOf.of_closeGroup hopens hgroup
        rw [hrest, List.append_nil] at hsplit
        rwa [hsplit]
    refine ⟨!group.rest.isEmpty, by simp [hblock], ?_⟩
    simp only [readArrowBody?, harrow, hbrace, hgroup]
    rfl
  · refine ⟨true, iff_of_true rfl ?_, ?_⟩
    · rintro ⟨opener, _, _, hsplit, hopens, _⟩
      cases hsplit
      exact hbrace (Token.isPunct_iff.mpr (Token.opens?_eq_some_iff.mp hopens))
    · simp only [readArrowBody?, harrow, hbrace]
      rfl

/-! ### Values -/

/-- No value starts both like an arrow function and like a function. -/
theorem ArrowHead.ne_functionHead {isAsync isAsync' isGenerator : Bool} {params : String}
    {head head' body rest : List Token} {arrow : Token} (h : ArrowHead isAsync params head)
    (harrow : arrow.isPunct "=>") (h' : FunctionHead isAsync' isGenerator head') :
    head ++ arrow :: body ≠ head' ++ rest := by
  rcases h' with @⟨_, async', _, _, word', hasync', hword', _, _⟩
  -- The first tokens of both, the optional `async` apart, are different.
  have hne {async others others' : List Token} {p : Token}
      (hasync : Optionally (·.isIdent "async") isAsync async) (hp : ¬p.isIdent "function")
      (hothers : p.isIdent "async" → ∀ q ∈ others.head?, ¬q.isIdent "function") :
      async ++ p :: others ≠ async' ++ word' :: others' := by
    intro heq
    cases hasync with
    | leftOut =>
      cases hasync' with
      | leftOut => exact hp ((List.cons.inj heq).1 ▸ hword')
      | there ha =>
        obtain ⟨rfl, rfl⟩ := List.cons.inj heq
        exact hothers ha word' rfl hword'
    | there ha =>
      cases hasync' with
      | leftOut =>
        obtain ⟨rfl, -⟩ := List.cons.inj heq
        rw [isIdent_eq_false ha "function" (by decide)] at hword'
        contradiction
      | there ha' => exact hp ((List.cons.inj (List.cons.inj heq).2).1 ▸ hword')
  cases h with
  | group hasync hparams =>
    obtain ⟨p, inside, closer, rfl, hopens, _⟩ := hparams.closeGroup_eq
    have hp (text : String) : ¬p.isIdent text := by
      simp [Token.isIdent, (Token.opens?_eq_some_iff.mp hopens).1]
    simpa using hne hasync (hp _) fun h => absurd h (hp _)
  | name hasync _ hword =>
    have harrow : ¬arrow.isIdent "function" := by
      simp [Token.isIdent, (Token.isPunct_iff.mp harrow).1]
    have hbehind : ∀ q ∈ (arrow :: body).head?, ¬q.isIdent "function" := by simpa using harrow
    simpa using hne hasync hword fun _ => hbehind

/-- What stands before an arrow is not read as a function. -/
theorem readFunction?_of_arrowHead {stop : Nat} {isAsync : Bool} {params : String}
    {head body : List Token} {arrow : Token} (h : ArrowHead isAsync params head)
    (harrow : arrow.isPunct "=>") : readFunction? stop (head ++ arrow :: body) = .ok none := by
  obtain ⟨hnone, _⟩ | ⟨_, _, head', rest, hhead', hsplit, _⟩ :=
    readFunction?_cases stop (head ++ arrow :: body)
  · exact hnone
  · exact absurd hsplit (h.ne_functionHead harrow hhead')

/-- A parameter list starts with a sign that is no star. -/
theorem head?_append_of_isGroupOf {params : List Token} (h : IsGroupOf .round params)
    (rest : List Token) :
    ∀ t ∈ (params ++ rest).head?, t.kind = .punct ∧ t.isPunct "*" = false := by
  obtain ⟨opener, inside, closer, rfl, hopens, _⟩ := h
  obtain ⟨hkind, htext⟩ := Token.opens?_eq_some_iff.mp hopens
  simp [hkind, Token.isPunct, htext, Bracket.opener]

/-- The body of an arrow function is balanced where the whole value is. -/
theorem ArrowHead.balanced_body {isAsync : Bool} {params : String} {head body : List Token}
    {arrow : Token} (hhead : ArrowHead isAsync params head) (harrow : arrow.isPunct "=>")
    (h : Balanced (head ++ arrow :: body)) : Balanced body := by
  have hnot := not_delimiter_of_isPunct harrow fun b => by cases b <;> decide
  exact (hhead.balanced.of_append h).of_plain hnot.1

/-- A value is read as a function first, and as an arrow function when it is none. -/
theorem readMethod?_eq (stop : Nat) (value : List Token) :
    readMethod? stop value = match readFunction? stop value with
      | .error e => .error e
      | .ok (some method) => .ok (some method)
      | .ok none => readArrow? value := by
  rw [readMethod?]
  cases readFunction? stop value with
  | error e => rfl
  | ok method => cases method <;> rfl

/-- A value that is a method is read as this method. -/
theorem readMethod?_of_writesMethod {stop : Nat} {value : List Token} {method : Method}
    (hvalue : Balanced value) (hstart : ¬StartsAsyncArrow value) (h : WritesMethod value method) :
    readMethod? stop value = .ok (some method) := by
  cases h with
  | @function isAsync isGenerator head params body hhead hparams hbody =>
    have hread : readSignature stop (params ++ body) =
        .ok ⟨Token.spanText params, Token.spanText body, []⟩ :=
      readSignature_eq_ok_iff.mpr ⟨params, body, by simp, hparams, hbody, rfl, rfl⟩
    simp [readMethod?_eq, readFunction?_of_head hhead (head?_append_of_isGroupOf hparams body),
      hread, Except.map, methodOf?]
  | @arrow isAsync expressionBody params head body arrow hhead harrow hbody hexpression =>
    obtain ⟨expressionBody', hexpression', hread⟩ :=
      readArrowBody?_of_balanced (functionModifier isAsync false) params harrow hbody
        (hhead.balanced_body harrow hvalue)
    obtain rfl : expressionBody' = expressionBody :=
      Bool.eq_iff_iff.mpr (hexpression'.trans hexpression.symm)
    simp [readMethod?_eq, readFunction?_of_arrowHead hhead harrow,
      readArrow?_of_head hhead harrow hstart, hread]

/-- Behind the words of a function without a parameter list and a block nothing is read. -/
theorem exists_error_of_lacksBlock {stop : Nat} {value : List Token} (h : LacksBlock value) :
    ∃ e, readMethod? stop value = .error e := by
  obtain ⟨hnone, hno⟩ | ⟨isAsync, isGenerator, head, rest, hhead, hsplit, hread⟩ :=
    readFunction?_cases stop value
  · obtain ⟨isAsync, isGenerator, head, rest, hhead, hsplit⟩ := h.starts
    exact absurd hsplit (hno _ _ _ _ hhead)
  · cases hsignature : readSignature stop rest with
    | error e => exact ⟨e, by simp [readMethod?_eq, hread, hsignature, Except.map]⟩
    | ok signature =>
      obtain ⟨params, body, hrest, hparams, hbody, _⟩ := readSignature_eq_ok_iff.mp hsignature
      obtain ⟨opener, inside, closer, rfl, hopens, _⟩ := hbody
      have hbrace : opener.isPunct "\x7b" :=
        Token.isPunct_iff.mpr (Token.opens?_eq_some_iff.mp hopens)
      have hvalue :
          value = head ++ (params ++ opener :: (inside ++ [closer] ++ signature.rest)) := by
        rw [hsplit, hrest, List.cons_append]
      exact absurd hvalue (h.lacks hhead hparams hbrace)

/-- The body of an arrow function is not left out. -/
theorem exists_error_of_lacksBody {stop : Nat} {value : List Token}
    (hstart : ¬StartsAsyncArrow value) (h : LacksBody value) :
    ∃ e, readMethod? stop value = .error e := by
  obtain ⟨isAsync, params, head, arrow, hhead, harrow, rfl⟩ := h
  refine ⟨⟨.missingArrowBody, arrow.stop⟩, ?_⟩
  simp [readMethod?_eq, readFunction?_of_arrowHead hhead harrow,
    readArrow?_of_head hhead harrow hstart, readArrowBody?, harrow]

/-- A balanced value that is not read as a function may be an arrow function. -/
theorem readMethod?_cases_of_noFunction {stop : Nat} {value : List Token} (h : Balanced value)
    (hnone : readFunction? stop value = .ok none) :
    (∃ method, WritesMethod value method ∧ readMethod? stop value = .ok (some method)) ∨
      (LacksBody value ∧ ∃ e, readMethod? stop value = .error e) ∨
      readMethod? stop value = .ok none := by
  have hread : readMethod? stop value = readArrow? value := by
    rw [readMethod?_eq, hnone]
  have hfunction (isAsync isGenerator : Bool) (head : List Token) (arrow : Token)
      (rest : List Token) (hhead : FunctionHead isAsync isGenerator head)
      (harrow : arrow.isPunct "=>") : value ≠ head ++ arrow :: rest := by
    rintro rfl
    obtain ⟨hkind, htext⟩ := Token.isPunct_iff.mp harrow
    rw [readFunction?_of_head hhead (by simp [hkind, Token.isPunct, htext])] at hnone
    simp [readSignature, Token.isPunct, htext, Except.map] at hnone
  obtain hnone | ⟨isAsync, params, head, arrow, body, hhead, harrow, rfl, harrowRead⟩ :=
    readArrow?_cases h hfunction
  · exact .inr (.inr (hread.trans hnone))
  · rw [hread, harrowRead]
    by_cases hbody : body = []
    · subst hbody
      refine .inr (.inl ⟨⟨_, _, _, arrow, hhead, harrow, rfl⟩, ⟨.missingArrowBody, arrow.stop⟩, ?_⟩)
      simp [readArrowBody?, harrow]
    · obtain ⟨expressionBody, hexpression, hbodyRead⟩ :=
        readArrowBody?_of_balanced (functionModifier isAsync false) params harrow hbody
          (hhead.balanced_body harrow h)
      exact .inl ⟨_, .arrow hhead harrow hbody hexpression, hbodyRead⟩

/-- What reading a balanced value comes to: it is a method, or a part of a method is left out, or it
is read as a value. -/
theorem readMethod?_cases (stop : Nat) {value : List Token} (h : Balanced value) :
    (∃ method, WritesMethod value method ∧ readMethod? stop value = .ok (some method)) ∨
      ((LacksBlock value ∨ LacksBody value) ∧ ∃ e, readMethod? stop value = .error e) ∨
      readMethod? stop value = .ok none := by
  have hnoFunction (hnone : readFunction? stop value = .ok none) :=
    (readMethod?_cases_of_noFunction h hnone).imp_right
      (Or.imp_left (And.imp_left (Or.inr (a := LacksBlock value))))
  obtain ⟨hnone, _⟩ | ⟨isAsync, isGenerator, head, rest, hhead, hsplit, hread⟩ :=
    readFunction?_cases stop value
  · exact hnoFunction hnone
  · cases hsignature : readSignature stop rest with
    | error e =>
      rw [hsignature] at hread
      have herror : readMethod? stop value = .error e := by
        simp [readMethod?_eq, hread, Except.map]
      refine .inr (.inl ⟨.inl ⟨⟨_, _, _, _, hhead, hsplit⟩, ?_⟩, e, herror⟩)
      -- With a parameter list and a brace behind any words of a function, the block would be read.
      rintro isAsync' isGenerator' head' params' rest' brace hhead' hparams' hbrace rfl
      have hbehind : Balanced (brace :: rest') :=
        hparams'.balanced.of_append (hhead'.balanced.of_append h)
      obtain ⟨signature, hok⟩ := exists_readSignature stop hparams' hbrace hbehind
      rw [readFunction?_of_head hhead' (head?_append_of_isGroupOf hparams' _), hok] at hread
      simp [Except.map] at hread
    | ok signature =>
      rw [hsignature] at hread
      obtain ⟨params, body, hrest, hparams, hbody, hparamsText, hbodyText⟩ :=
        readSignature_eq_ok_iff.mp hsignature
      by_cases hend : signature.rest = []
      · have hmethod : WritesMethod value ⟨functionModifier isAsync isGenerator,
            signature.params, signature.body, false⟩ := by
          rw [hsplit, hrest, hend, List.append_nil, hparamsText, hbodyText]
          exact .function hhead hparams hbody
        refine .inl ⟨_, hmethod, ?_⟩
        simp [readMethod?_eq, hread, methodOf?, hend, Except.map]
      · -- A function with something behind its block is no method.
        exact hnoFunction (by simp [hread, methodOf?, hend, Except.map])

/-- A balanced value is read as a method exactly when it is a function that ends with its block, or
an arrow function; then the method is the one that is written, cut out of the script. A value that
starts like a function and does not go on like one is an error, and so is an arrow function without
a body. Every other value is read as a value. -/
theorem methods_read_exactly {stop : Nat} {value : List Token} (h : Balanced value)
    (hstart : ¬StartsAsyncArrow value) :
    (∀ method, readMethod? stop value = .ok (some method) ↔ WritesMethod value method) ∧
      ((∃ e, readMethod? stop value = .error e) ↔ LacksBlock value ∨ LacksBody value) ∧
      (readMethod? stop value = .ok none ↔
        ¬(∃ method, WritesMethod value method) ∧ ¬(LacksBlock value ∨ LacksBody value)) ∧
      (∀ isAsync isGenerator, (functionModifier isAsync isGenerator).text =
        (if isAsync then "async " else "") ++ (if isGenerator then "*" else "")) ∧
      ∀ source tokens, tokenize source = .ok tokens → value <:+: tokens →
        ∀ t others, t :: others <:+: value →
          IsSlice source t.start (Token.lastStop t others)
            (Token.spanText (t :: others)).toList := by
  have hlacks (hl : LacksBlock value ∨ LacksBody value) :
      ∃ e, readMethod? stop value = .error e :=
    hl.elim exists_error_of_lacksBlock (exists_error_of_lacksBody hstart)
  have hwrites {method : Method} (hw : WritesMethod value method) :
      readMethod? stop value = .ok (some method) := readMethod?_of_writesMethod h hstart hw
  refine ⟨fun method => ⟨fun hread => ?_, hwrites⟩, ⟨fun ⟨e, hread⟩ => ?_, hlacks⟩,
    ⟨fun hread => ⟨fun ⟨method, hw⟩ => ?_, fun hl => ?_⟩, fun ⟨hno, hno'⟩ => ?_⟩, by decide,
    fun source tokens htokens hvalue t others hrun => ?_⟩
  · obtain ⟨method', hw, hread'⟩ | ⟨-, e, hread'⟩ | hread' := readMethod?_cases stop h
    · cases hread.symm.trans hread'
      exact hw
    · simp [hread] at hread'
    · simp [hread] at hread'
  · obtain ⟨method', -, hread'⟩ | ⟨hl, -⟩ | hread' := readMethod?_cases stop h
    · simp [hread] at hread'
    · exact hl
    · simp [hread] at hread'
  · simp [hwrites hw] at hread
  · obtain ⟨e, herror⟩ := hlacks hl
    simp [herror] at hread
  · obtain ⟨method', hw, -⟩ | ⟨hl, -⟩ | hread := readMethod?_cases stop h
    · exact absurd ⟨_, hw⟩ hno
    · exact absurd hl hno'
    · exact hread
  · rw [Token.spanText, String.toList_ofList]
    exact isSlice_span htokens (hrun.trans hvalue)

/-- An arrow function whose body starts with a block and goes on behind it. -/
theorem methods_read_exactly_of_arrow :
    ∃ value method, tokenize "async x => \x7b\x7d + 1" = .ok value ∧ Balanced value ∧
      ¬StartsAsyncArrow value ∧ readMethod? 17 value = .ok (some method) ∧
      method = ⟨.async, "(x)", "\x7b\x7d + 1", true⟩ ∧ WritesMethod value method := by
  let value := (tokenize "async x => \x7b\x7d + 1").toOption.getD []
  have htokens : tokenize "async x => \x7b\x7d + 1" = .ok value := by decide +kernel
  have hbalanced : Balanced value :=
    balanced_of_closeGroup ⟨.punct, [], 0, ['\x7b']⟩ ⟨.punct, [], 17, ['\x7d']⟩
      (by decide +kernel)
  have hstart : ¬StartsAsyncArrow value := by
    rintro ⟨async, arrow, rest, hvalue, -, harrow⟩
    have hsecond : value[1]? = some arrow := by rw [hvalue]; rfl
    have hnot : (value[1]?).all (!·.isPunct "=>") = true := by decide +kernel
    simp [hsecond, harrow] at hnot
  have hread : readMethod? 17 value = .ok (some ⟨.async, "(x)", "\x7b\x7d + 1", true⟩) := by
    decide +kernel
  exact ⟨value, _, htokens, hbalanced, hstart, hread, rfl,
    ((methods_read_exactly hbalanced hstart).1 _).mp hread⟩

end Member

end Reclass
