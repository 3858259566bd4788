import Reclass.Proofs.Script.Group
import Reclass.Proofs.Script.Substitution

/-!
# Slashes behind operands

Whether a slash divides or starts a regular expression is decided by the one token before it. Where
that token ends an operand, the slash should divide. It does, but for two kinds of operands: a
member whose name is spelled like an expression word is taken for that word, and of `++` and `--`
behind an operand only the last sign is seen.
-/

namespace Reclass

namespace Script

/-! ### Places where code is read -/

/-- That reading a script stands at a stream, and which tokens it has read before on the same level.
On the level of the script no braces are counted; in a substitution of a template they are, so that
reading does not go on behind the brace that closes it. -/
inductive CodeAt (source : String) : Option Nat → List Token → TokenStream → Prop
  | start : CodeAt source none [] (.ofSource source)
  | token {read : List Token} {stream after : TokenStream} {t : Token}
      (hcode : CodeAt source none read stream) (hnext : stream.next = (.ok (some t), after)) :
      CodeAt source none (read ++ [t]) after
  | substitution {braces : Option Nat} {read : List Token} {stream : TokenStream} {offset : Nat}
      {text s : List Char} (hcode : CodeAt source braces read stream)
      (htemplate : (gap stream.rest).2 = '\x60' :: text) (hat : SubstitutionAt text s)
      (hplace : offset + Text.byteLength s = stream.offset + Text.byteLength stream.rest) :
      CodeAt source (some 0) [] ⟨offset, s, true⟩
  | inside {depth depth' : Nat} {read : List Token} {stream after : TokenStream} {t : Token}
      (hcode : CodeAt source (some depth) read stream)
      (hnext : stream.next = (.ok (some t), after))
      (hdepth : depthAfter? depth t.lexeme = some depth') :
      CodeAt source (some depth') (read ++ [t]) after

/-- Behind a token it is that token that decides what a slash starts. -/
theorem CodeAt.slash_of_concat {source : String} {braces : Option Nat} {read : List Token}
    {stream : TokenStream} {t : Token} (h : CodeAt source braces (read ++ [t]) stream) :
    stream.slash = t.lexeme.slash := by
  generalize hread : read ++ [t] = read' at h
  cases h with
  | start => simp at hread
  | token _ hnext =>
    obtain ⟨_, _, _, hslash⟩ := next_eq_some hnext
    obtain ⟨_, hlast⟩ := List.append_inj' hread rfl
    cases hlast
    exact hslash
  | substitution => simp at hread
  | inside _ hnext =>
    obtain ⟨_, _, _, hslash⟩ := next_eq_some hnext
    obtain ⟨_, hlast⟩ := List.append_inj' hread rfl
    cases hlast
    exact hslash

/-! ### Operands -/

/-- A name token that is spelled like a word that leaves an expression open. -/
def IsExpressionWord (t : Token) : Prop :=
  t.kind = .ident ∧ t.text ∈ expressionWords.map String.toList

/-- That the last of some tokens is an operand, or ends one. -/
inductive EndsOperand : List Token → Prop
  | name {t : Token} (read : List Token) (hkind : t.kind = .ident) (hword : ¬IsExpressionWord t) :
      EndsOperand (read ++ [t])
  /-- The name of a member may be spelled like any word. -/
  | member {p t : Token} (read : List Token) (hpoint : p.isPunct ".") (hkind : t.kind = .ident) :
      EndsOperand (read ++ [p, t])
  | literal {t : Token} (read : List Token)
      (hkind : t.kind ∈ [TokenKind.number, .str, .template, .regex]) : EndsOperand (read ++ [t])
  | closed {t : Token} (read : List Token) (hcloses : t.isPunct ")" ∨ t.isPunct "]") :
      EndsOperand (read ++ [t])

/-- That two tokens are the signs of one `++` or `--` on the line of what stands before them. -/
def IsPostfix (u v : Token) : Prop :=
  (u.isPunct "+" ∧ v.isPunct "+" ∨ u.isPunct "-" ∧ v.isPunct "-") ∧ v.gap = [] ∧
    ∀ c ∈ u.gap, c ∉ ['\n', '\r', '\u2028', '\u2029']

/-- That some tokens end in an operand with `++` or `--` behind it. -/
def IsPostfixed (tokens : List Token) : Prop :=
  ∃ operand u v, tokens = operand ++ [u, v] ∧ EndsOperand operand ∧ IsPostfix u v

/-- That some tokens end in a member whose name is spelled like an expression word. -/
def EndsInWordMember (tokens : List Token) : Prop :=
  ∃ read p t, tokens = read ++ [p, t] ∧ p.isPunct "." ∧ IsExpressionWord t

/-- Behind every other operand a slash starts no regular expression. -/
private theorem EndsOperand.slash_eq_false {tokens : List Token} (h : EndsOperand tokens)
    (hword : ¬EndsInWordMember tokens) :
    ∃ read t, tokens = read ++ [t] ∧ t.lexeme.slash = false := by
  cases h with
  | @name t read hkind hother =>
    refine ⟨read, t, rfl, ?_⟩
    rw [Lexeme.slash, Token.lexeme, hkind, Bool.eq_false_iff, ne_eq, opensRegex_ident_iff]
    exact fun h => hother ⟨hkind, h⟩
  | @member p t read hpoint hkind =>
    refine ⟨read ++ [p], t, by simp, ?_⟩
    rw [Lexeme.slash, Token.lexeme, hkind, Bool.eq_false_iff, ne_eq, opensRegex_ident_iff]
    exact fun h => hword ⟨read, p, t, rfl, hpoint, hkind, h⟩
  | @literal t read hkind =>
    refine ⟨read, t, rfl, ?_⟩
    rw [Lexeme.slash, Token.lexeme]
    cases hkinds : t.kind <;> simp [hkinds] at hkind <;> rfl
  | @closed t read hcloses =>
    refine ⟨read, t, rfl, ?_⟩
    rcases hcloses with h | h <;>
    · obtain ⟨hkind, htext⟩ := Token.isPunct_iff.mp h
      rw [Lexeme.slash, Token.lexeme, hkind, htext]
      decide

/-- Behind `++`, behind `--`, and behind a member that is spelled like an expression word, a slash
starts a regular expression. -/
private theorem slash_eq_true {tokens : List Token}
    (h : IsPostfixed tokens ∨ EndsInWordMember tokens) :
    ∃ read t, tokens = read ++ [t] ∧ t.lexeme.slash = true := by
  rcases h with ⟨read, u, v, rfl, _, hsigns, _⟩ | ⟨read, p, t, rfl, _, hkind, hword⟩
  · refine ⟨read ++ [u], v, by simp, ?_⟩
    rcases hsigns with ⟨_, h⟩ | ⟨_, h⟩ <;>
    · obtain ⟨hkind, htext⟩ := Token.isPunct_iff.mp h
      rw [Lexeme.slash, Token.lexeme, hkind, htext]
      decide
  · refine ⟨read ++ [p], t, by simp, ?_⟩
    rw [Lexeme.slash, Token.lexeme, hkind]
    exact opensRegex_ident_iff.mpr hword

/-- A slash is read as a sign only where it starts no regular expression. -/
private theorem LexemeRead.slash_of_sign {slash : Bool} {s rest : List Char} {token : Lexeme}
    (h : LexemeRead slash s token rest) (htoken : token = sign '/') : slash = false := by
  cases h with
  | @punct c s _ _ hslash =>
    have htext : (punctuation c s).1 = ['/'] := congrArg Lexeme.text htoken
    have happend := punctuation_append c s
    rw [htext] at happend
    exact (hslash (List.cons.inj happend).1.symm).2
  | _ => exact absurd (congrArg Lexeme.kind htoken) (by simp [sign])

/-- The next token is a slash exactly where a slash starts no regular expression. -/
private theorem next_isPunct_slash_iff {stream : TokenStream} {rest : List Char}
    (hslash : (gap stream.rest).2 = '/' :: rest) (hcomment : rest.head? ≠ some '*') :
    (∃ t after, stream.next = (.ok (some t), after) ∧ t.isPunct "/") ↔ stream.slash = false := by
  constructor
  · rintro ⟨t, after, hnext, hsign⟩
    obtain ⟨_, _, hread, _⟩ := next_eq_some hnext
    obtain ⟨hkind, htext⟩ := Token.isPunct_iff.mp hsign
    exact hread.slash_of_sign (by rw [Token.lexeme, hkind, htext, sign]; rfl)
  · intro hfalse
    have hread : LexemeRead stream.slash (gap stream.rest).2 (sign '/') rest := by
      rw [hslash]
      have h : LexemeRead stream.slash ('/' :: rest) _ _ :=
        .punct (by decide) (by decide) (fun _ => ⟨hcomment, hfalse⟩) (by simp) (by decide)
      rwa [punctuation_single (fun h => absurd h (by decide)) fun h => absurd h (by decide)] at h
    obtain ⟨t, after, hnext, hlexeme, _⟩ := exists_next_of_read hread
    refine ⟨t, after, hnext, Token.isPunct_iff.mpr ?_⟩
    exact ⟨congrArg Lexeme.kind hlexeme, congrArg Lexeme.text hlexeme⟩

/-- Behind an operand a slash that starts no comment divides exactly when the operand has no `++` or
`--` behind it and is no member whose name is spelled like an expression word. -/
theorem slash_divides_iff {source : String} {braces : Option Nat} {read : List Token}
    {stream : TokenStream} {rest : List Char} (hcode : CodeAt source braces read stream)
    (hoperand : EndsOperand read ∨ IsPostfixed read)
    (hslash : (gap stream.rest).2 = '/' :: rest) (hcomment : rest.head? ≠ some '*') :
    (∃ t after, stream.next = (.ok (some t), after) ∧ t.isPunct "/") ↔
      ¬IsPostfixed read ∧ ¬EndsInWordMember read := by
  rw [next_isPunct_slash_iff hslash hcomment]
  constructor
  · intro hfalse
    rw [← not_or]
    intro h
    obtain ⟨before, t, rfl, htrue⟩ := slash_eq_true h
    rw [hcode.slash_of_concat, htrue] at hfalse
    exact Bool.noConfusion hfalse
  · rintro ⟨hpostfixed, hword⟩
    obtain ⟨before, t, rfl, hfalse⟩ := (hoperand.resolve_right hpostfixed).slash_eq_false hword
    rw [hcode.slash_of_concat, hfalse]

/-- In the second substitution of a template, a member is divided that is spelled like no expression
word. -/
theorem slash_divides_in_substitution :
    ∃ source read stream t after, source = "\x60$\x7ba\x7d\\$$\x7bb.c /*/*/ /2\x7d\x60" ∧
      CodeAt source (some 0) read stream ∧ EndsOperand read ∧
      (gap stream.rest).2 = "/2\x7d\x60".toList ∧ stream.next = (.ok (some t), after) ∧
      t.isPunct "/" := by
  have hat : SubstitutionAt "$\x7ba\x7d\\$$\x7bb.c /*/*/ /2\x7d\x60".toList
      "b.c /*/*/ /2\x7d\x60".toList := by
    have hfirst : substitution? 0 true "a\x7d\\$$\x7bb.c /*/*/ /2\x7d\x60".toList =
        some ("a\x7d".toList, "\\$$\x7bb.c /*/*/ /2\x7d\x60".toList) := by
      decide +kernel
    exact .behind hfirst (.escaped '$' (.here _))
  have hstart : CodeAt "\x60$\x7ba\x7d\\$$\x7bb.c /*/*/ /2\x7d\x60" (some 0) []
      ⟨9, "b.c /*/*/ /2\x7d\x60".toList, true⟩ :=
    CodeAt.start.substitution (by decide +kernel) hat (by decide +kernel)
  have hname : TokenStream.next ⟨9, "b.c /*/*/ /2\x7d\x60".toList, true⟩ =
      (.ok (some ⟨.ident, [], 9, ['b']⟩), ⟨10, ".c /*/*/ /2\x7d\x60".toList, false⟩) := by
    decide +kernel
  have hpoint : TokenStream.next ⟨10, ".c /*/*/ /2\x7d\x60".toList, false⟩ =
      (.ok (some ⟨.punct, [], 10, ['.']⟩), ⟨11, "c /*/*/ /2\x7d\x60".toList, true⟩) := by
    decide +kernel
  have hmember : TokenStream.next ⟨11, "c /*/*/ /2\x7d\x60".toList, true⟩ =
      (.ok (some ⟨.ident, [], 11, ['c']⟩), ⟨12, " /*/*/ /2\x7d\x60".toList, false⟩) := by
    decide +kernel
  have hcode := ((hstart.inside hname rfl).inside hpoint rfl).inside hmember rfl
  have hslash : (gap " /*/*/ /2\x7d\x60".toList).2 = '/' :: "2\x7d\x60".toList := by
    decide +kernel
  have hoperand : EndsOperand
      [⟨.ident, [], 9, ['b']⟩, ⟨.punct, [], 10, ['.']⟩, ⟨.ident, [], 11, ['c']⟩] :=
    .member [⟨.ident, [], 9, ['b']⟩] (by decide) rfl
  have hpostfixed : ¬IsPostfixed
      [⟨.ident, [], 9, ['b']⟩, ⟨.punct, [], 10, ['.']⟩, ⟨.ident, [], 11, ['c']⟩] := by
    rintro ⟨operand, u, v, heq, _, hsigns, _⟩
    obtain ⟨_, hlast⟩ := List.append_inj' (show [_] ++ [_, _] = operand ++ [u, v] from heq) rfl
    cases hlast
    exact absurd hsigns (by decide)
  have hword : ¬EndsInWordMember
      [⟨.ident, [], 9, ['b']⟩, ⟨.punct, [], 10, ['.']⟩, ⟨.ident, [], 11, ['c']⟩] := by
    rintro ⟨before, p, t, heq, _, _, htext⟩
    obtain ⟨_, hlast⟩ := List.append_inj' (show [_] ++ [_, _] = before ++ [p, t] from heq) rfl
    cases hlast
    exact absurd htext (by decide)
  obtain ⟨t, after, hnext, hsign⟩ :=
    (slash_divides_iff hcode (.inl hoperand) hslash (by decide)).mpr ⟨hpostfixed, hword⟩
  exact ⟨_, _, _, t, after, rfl, hcode, hoperand, hslash, hnext, hsign⟩

/-- Behind `a++` a slash starts a regular expression that never ends, and behind the member
`x.return` one that does. -/
theorem slash_behind_postfixed_opens_regex :
    (∃ read stream, CodeAt "a++ /b" none read stream ∧ IsPostfixed read ∧
      (gap stream.rest).2 = ['/', 'b'] ∧ stream.next.1 = .error ⟨.unterminatedRegex, 4⟩) ∧
    (∃ read stream t, CodeAt "x.return /2/ y" none read stream ∧ EndsOperand read ∧
      (gap stream.rest).2 = "/2/ y".toList ∧ stream.next.1 = .ok (some t) ∧ t.kind = .regex) := by
  constructor
  · have hname : (TokenStream.ofSource "a++ /b").next =
        (.ok (some ⟨.ident, [], 0, ['a']⟩), ⟨1, "++ /b".toList, false⟩) := by
      decide +kernel
    have hfirst : TokenStream.next ⟨1, "++ /b".toList, false⟩ =
        (.ok (some ⟨.punct, [], 1, ['+']⟩), ⟨2, "+ /b".toList, true⟩) := by
      decide +kernel
    have hsecond : TokenStream.next ⟨2, "+ /b".toList, true⟩ =
        (.ok (some ⟨.punct, [], 2, ['+']⟩), ⟨3, " /b".toList, true⟩) := by
      decide +kernel
    have hoperand : EndsOperand [⟨.ident, [], 0, ['a']⟩] :=
      .name [] rfl fun hword => absurd hword.2 (by decide)
    have hsigns : IsPostfix ⟨.punct, [], 1, ['+']⟩ ⟨.punct, [], 2, ['+']⟩ :=
      ⟨.inl (by decide), rfl, by simp⟩
    exact ⟨_, _, ((CodeAt.start.token hname).token hfirst).token hsecond,
      ⟨_, _, _, rfl, hoperand, hsigns⟩, by decide +kernel, by decide +kernel⟩
  · have hname : (TokenStream.ofSource "x.return /2/ y").next =
        (.ok (some ⟨.ident, [], 0, ['x']⟩), ⟨1, ".return /2/ y".toList, false⟩) := by
      decide +kernel
    have hpoint : TokenStream.next ⟨1, ".return /2/ y".toList, false⟩ =
        (.ok (some ⟨.punct, [], 1, ['.']⟩), ⟨2, "return /2/ y".toList, true⟩) := by
      decide +kernel
    have hmember : TokenStream.next ⟨2, "return /2/ y".toList, true⟩ =
        (.ok (some ⟨.ident, [], 2, "return".toList⟩), ⟨8, " /2/ y".toList, true⟩) := by
      decide +kernel
    exact ⟨_, _, ⟨.regex, [' '], 9, "/2/".toList⟩,
      ((CodeAt.start.token hname).token hpoint).token hmember,
      .member [⟨.ident, [], 0, ['x']⟩] (by decide) rfl, by decide +kernel, by decide +kernel, rfl⟩

end Script

end Reclass
