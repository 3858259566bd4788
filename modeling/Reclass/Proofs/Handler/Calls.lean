import Reclass.Proofs.Handler.Fragments
import Reclass.Proofs.Script.Sequence
import Mathlib.Data.List.Infix
import Mathlib.Tactic.Push

/-!
# Calls of the factories among tokens

Four neighbouring tokens start the registration of a handler. A token that is none of these four
keeps two runs of tokens apart: no call starts in one of them and ends in the other.
-/

namespace Reclass

open Script

/-- The tokens that start the registration of a handler. -/
def HandlerKind.callStart (kind : HandlerKind) : List Lexeme :=
  [Script.word "NGS", sign '.', Script.word kind.factoryMethod, sign '(']

/-- That some tokens hold the start of a registration. -/
def HoldsCall (tokens : List Lexeme) : Prop := ∃ kind : HandlerKind, kind.callStart <:+: tokens

/-- A token is the name with a text when its lexeme is that word. -/
theorem Token.isIdent_iff_lexeme {t : Token} {text : String} :
    t.isIdent text = true ↔ t.lexeme = Script.word text := by
  rw [Token.isIdent_iff, Token.lexeme, Script.word, Lexeme.mk.injEq]

/-- A token is the sign with a text when its lexeme is that sign. -/
theorem Token.isPunct_iff_lexeme {t : Token} {text : String} {c : Char}
    (htext : text.toList = [c]) : t.isPunct text = true ↔ t.lexeme = sign c := by
  rw [Token.isPunct_iff, htext, Token.lexeme, sign, Lexeme.mk.injEq]

namespace Registration

/-- Four tokens start a registration when they are the tokens of such a start. -/
theorem kindAt?_eq_some_iff {a b c d : Token} {kind : HandlerKind} :
    kindAt? HandlerKind.all a b c d = some kind ↔
      [a.lexeme, b.lexeme, c.lexeme, d.lexeme] = kind.callStart := by
  have hpoint : b.isPunct "." = true ↔ b.lexeme = sign '.' := Token.isPunct_iff_lexeme rfl
  have hparen : d.isPunct "(" = true ↔ d.lexeme = sign '(' := Token.isPunct_iff_lexeme rfl
  have hkinds : (HandlerKind.all.find? fun kind => c.isIdent kind.factoryMethod) = some kind ↔
      c.lexeme = word kind.factoryMethod := by
    rw [← Token.isIdent_iff_lexeme]
    constructor
    · intro h
      have hfound := List.find?_some h
      exact hfound
    · intro h
      have htext := (Token.isIdent_iff.mp h).2
      cases kind with
      | load => simp [HandlerKind.all, h]
      | action =>
        have hload : c.isIdent HandlerKind.load.factoryMethod = false := by
          rw [← Bool.not_eq_true, Token.isIdent_iff, htext]
          exact fun h => absurd h.2 (by decide)
        simp [HandlerKind.all, h, hload]
  rw [kindAt?]
  simp only [HandlerKind.callStart, List.cons.injEq, and_true]
  split
  · next hcall =>
    simp only [Bool.and_eq_true, Token.isIdent_iff_lexeme, hpoint, hparen] at hcall
    simp [hkinds, hcall]
  · next hcall =>
    simp only [Bool.and_eq_true, Token.isIdent_iff_lexeme, hpoint, hparen] at hcall
    simp only [reduceCtorEq, false_iff]
    exact fun h => hcall ⟨⟨h.1, h.2.1⟩, h.2.2.2⟩

private theorem kindAt?_eq_none_iff {a b c d : Token} :
    kindAt? HandlerKind.all a b c d = none ↔
      ∀ kind : HandlerKind, [a.lexeme, b.lexeme, c.lexeme, d.lexeme] ≠ kind.callStart := by
  simp only [Option.eq_none_iff_forall_ne_some, ne_eq, kindAt?_eq_some_iff]

/-- No registration is found when the tokens hold no start of one. -/
theorem findStart?_eq_none_iff {tokens : List Token} :
    findStart? HandlerKind.all tokens = none ↔ ¬HoldsCall (tokens.map Token.lexeme) := by
  fun_induction findStart? HandlerKind.all tokens with
  | case1 a b c d rest kind hkind =>
    simp only [reduceCtorEq, false_iff, not_not]
    have hsome : ¬∀ kind : HandlerKind,
        [a.lexeme, b.lexeme, c.lexeme, d.lexeme] ≠ kind.callStart := by
      rw [← kindAt?_eq_none_iff, hkind]
      simp
    push Not at hsome
    obtain ⟨kind, hkind⟩ := hsome
    refine ⟨kind, [], rest.map Token.lexeme, ?_⟩
    rw [← hkind]
    rfl
  | case2 a b c d rest hnone ih =>
    rw [Option.map_eq_none_iff, ih]
    refine not_congr (exists_congr fun kind => ?_)
    rw [List.map_cons (l := b :: c :: d :: rest), List.infix_cons_iff]
    refine (or_iff_right fun hfront => ?_).symm
    obtain ⟨v, hv⟩ := hfront
    have hkind := kindAt?_eq_none_iff.mp hnone kind
    simp only [HandlerKind.callStart, List.map_cons, List.cons_append, List.nil_append,
      List.cons.injEq] at hv
    refine hkind ?_
    rw [HandlerKind.callStart, hv.1, hv.2.1, hv.2.2.1, hv.2.2.2.1]
  | case3 tokens hshort =>
    simp only [true_iff]
    rintro ⟨kind, hstart⟩
    have hlength := hstart.length_le
    have hfour : 4 ≤ tokens.length := by simpa [HandlerKind.callStart] using hlength
    rcases tokens with _ | ⟨a, _ | ⟨b, _ | ⟨c, _ | ⟨d, rest⟩⟩⟩⟩
    · simp at hfour
    · simp at hfour
    · simp at hfour
    · simp at hfour
    · exact hshort a b c d rest rfl

end Registration

/-! ### Calls in parts of the tokens -/

/-- A token that does not belong to a run keeps the parts before and behind it apart. -/
theorem infix_append_cons_iff {α : Type} {w l r : List α} {z : α} (hz : z ∉ w) :
    w <:+: l ++ z :: r ↔ w <:+: l ∨ w <:+: r := by
  constructor
  · rintro ⟨u, v, h⟩
    rcases List.append_eq_append_iff.mp h with ⟨a, hl, _⟩ | ⟨c, huw, hc⟩
    · exact .inl ⟨u, a, hl.symm⟩
    · cases c with
      | nil => exact .inl ⟨u, [], by simpa using huw⟩
      | cons c₀ c =>
        obtain ⟨rfl, rfl⟩ := List.cons.inj hc
        rcases List.append_eq_append_iff.mp huw with ⟨a, hl, hw'⟩ | ⟨a, hu, ha⟩
        · exact absurd (by rw [hw']; simp) hz
        · cases a with
          | nil => exact absurd (by rw [← List.nil_append w, ← ha]; simp) hz
          | cons a₀ a =>
            obtain ⟨_, rfl⟩ := List.cons.inj ha
            exact .inr ⟨a, v, rfl⟩
  · rintro (h | h)
    · exact h.trans (List.prefix_append _ _).isInfix
    · exact h.trans ((List.suffix_cons z r).trans (List.suffix_append _ _)).isInfix

/-- That a token belongs to no start of a registration. -/
def IsApart (token : Lexeme) : Prop := ∀ kind : HandlerKind, token ∉ kind.callStart

/-- A token that belongs to no start of a registration keeps two runs apart. -/
theorem holdsCall_append_cons {l r : List Lexeme} {token : Lexeme} (h : IsApart token) :
    HoldsCall (l ++ token :: r) ↔ HoldsCall l ∨ HoldsCall r := by
  rw [HoldsCall, HoldsCall, HoldsCall, ← exists_or]
  exact exists_congr fun kind => infix_append_cons_iff (h kind)

/-- Without one of the four tokens there is no start of a registration. -/
theorem not_holdsCall_of_notMem {tokens : List Lexeme} {token : Lexeme} (h : token ∉ tokens)
    (hcall : ∀ kind : HandlerKind, token ∈ kind.callStart) : ¬HoldsCall tokens := by
  rintro ⟨kind, hstart⟩
  exact h (hstart.subset (hcall kind))

/-- Without a point there is no start of a registration. -/
theorem not_holdsCall_of_no_point {tokens : List Lexeme} (h : sign '.' ∉ tokens) :
    ¬HoldsCall tokens :=
  not_holdsCall_of_notMem h fun kind => by simp [HandlerKind.callStart]

/-- Without an opening parenthesis there is no start of a registration. -/
theorem not_holdsCall_of_no_parenthesis {tokens : List Lexeme} (h : sign '(' ∉ tokens) :
    ¬HoldsCall tokens :=
  not_holdsCall_of_notMem h fun kind => by simp [HandlerKind.callStart]

/-- A token that belongs to no start of a registration makes none. -/
theorem holdsCall_cons {r : List Lexeme} {token : Lexeme} (h : IsApart token) :
    HoldsCall (token :: r) ↔ HoldsCall r := by
  have hsplit : HoldsCall ([] ++ token :: r) ↔ HoldsCall [] ∨ HoldsCall r :=
    holdsCall_append_cons h
  exact hsplit.trans (or_iff_right (not_holdsCall_of_no_point (by simp)))

/-- A run that ends in a token that belongs to no start is kept apart from what follows it. -/
theorem holdsCall_append_of_last {l r : List Lexeme} {token : Lexeme}
    (hl : ∃ inside, l = inside ++ [token]) (h : IsApart token) :
    HoldsCall (l ++ r) ↔ HoldsCall l ∨ HoldsCall r := by
  obtain ⟨inside, rfl⟩ := hl
  have hinside : HoldsCall (inside ++ [token]) ↔ HoldsCall inside :=
    (holdsCall_append_cons h).trans (or_iff_left (not_holdsCall_of_no_point (by simp)))
  rw [hinside, List.append_assoc, List.singleton_append, holdsCall_append_cons h]

/-- A run that starts with a token that belongs to no start is kept apart from what stands before
it. -/
theorem holdsCall_append_of_head {l r : List Lexeme} {token : Lexeme}
    (hr : r.head? = some token) (h : IsApart token) :
    HoldsCall (l ++ r) ↔ HoldsCall l ∨ HoldsCall r := by
  obtain ⟨r, rfl⟩ := List.head?_eq_some_iff.mp hr
  rw [holdsCall_append_cons h, holdsCall_cons h]

/-- Tokens without a point before others that do not start with one start no registration. -/
theorem holdsCall_append_of_no_point {l r : List Lexeme} (hl : sign '.' ∉ l)
    (hr : r.head? ≠ some (sign '.')) : HoldsCall (l ++ r) ↔ HoldsCall r := by
  induction l with
  | nil => rfl
  | cons t l ih =>
    rw [← ih fun h => hl (List.mem_cons_of_mem _ h)]
    refine exists_congr fun kind => ?_
    rw [List.cons_append, List.infix_cons_iff]
    refine or_iff_right fun hfront => ?_
    obtain ⟨v, hv⟩ := hfront
    have hsecond : (l ++ r).head? = some (sign '.') := by
      rw [← (List.cons.inj hv).2]
      rfl
    cases l with
    | nil => exact hr hsecond
    | cons u l =>
      refine hl (List.mem_cons_of_mem _ ?_)
      rw [← Option.some.inj hsecond]
      exact List.mem_cons_self

/-! ### Calls in members -/

/-- That the contents of a member hold the start of a registration. -/
def Fragments.HoldCall : Fragments → Prop
  | .value tokens => HoldsCall tokens
  | .method params body => HoldsCall params ∨ HoldsCall body

end Reclass
