import Reclass.Proofs.Module.ClassTokens
import Reclass.Proofs.Handler.Calls

/-!
# Calls in a class

The words and signs that a class puts around the parts of its members keep these parts apart: a
class holds the start of a registration only where a value, a parameter list or a body does.
-/

namespace Reclass

open Script

/-- The texts of a member that its class repeats. -/
def Member.emitted (m : Member) : List String :=
  match m.method with
  | some method => [method.params, method.body]
  | none => [m.text]

/-- The contents of a member hold the start of a registration when one of its texts does. -/
theorem Member.ReadsAs.holdCall_iff {m : Member} {fragments : Fragments}
    (h : m.ReadsAs fragments) :
    fragments.HoldCall ↔ ∃ text ∈ m.emitted, HoldsCall (ownLexemes text) := by
  cases fragments with
  | value tokens =>
    obtain ⟨hmethod, hreads⟩ := h
    have htokens : ownLexemes m.text = tokens := by
      rw [ownLexemes, hreads.lexemes?]
      rfl
    simp [Fragments.HoldCall, Member.emitted, hmethod, htokens]
  | method params body =>
    obtain ⟨method, hmethod, hparams, hbody⟩ := h
    have hparamTokens : ownLexemes method.params = params := ownLexemes_eq hparams.reads
    have hbodyTokens : ownLexemes method.body = body := by
      split at hbody
      · rw [ownLexemes, hbody.lexemes?]
        rfl
      · exact ownLexemes_eq hbody.reads
    simp [Fragments.HoldCall, Member.emitted, hmethod, hparamTokens, hbodyTokens]

/-- A run between delimiters starts with the opening one. -/
theorem ReadsAsGroup.head?_tokens {opener closer : Char} {text : String} {tokens : List Lexeme}
    (h : ReadsAsGroup opener closer text tokens) (hmark : isMark opener = true) :
    tokens.head? = some (sign opener) := by
  obtain ⟨s, hs⟩ := List.head?_eq_some_iff.mp h.head
  have htokens := (h.reads true).lexemes?
  rw [hs, lexemes?_mark hmark] at htokens
  obtain ⟨others, _, rfl⟩ := Option.map_eq_some_iff.mp htokens
  rfl

namespace ClassModule

private theorem isApart_sign {c : Char} (hpoint : c ≠ '.') (hparen : c ≠ '(') :
    IsApart (sign c) := by
  intro kind
  simp [HandlerKind.callStart, sign, word, hpoint, hparen]

private theorem isApart_word {s : String} (hname : s ≠ "NGS")
    (hmethod : ∀ kind : HandlerKind, s ≠ kind.factoryMethod) : IsApart (word s) := by
  have hword {t : String} (h : s ≠ t) : word s ≠ word t := fun heq =>
    h (String.toList_inj.mp (congrArg Lexeme.text heq))
  intro kind hmem
  simp only [HandlerKind.callStart, List.mem_cons, List.not_mem_nil, or_false] at hmem
  rcases hmem with h | h | h | h
  · exact hword hname h
  · exact absurd (congrArg Lexeme.kind h) (by simp [word, sign])
  · exact hword (hmethod kind) h
  · exact absurd (congrArg Lexeme.kind h) (by simp [word, sign])

/-- What the constructor assigns to holds no start of a registration. -/
private theorem not_holdsCall_fieldTarget {key : PropertyKey} (h : key.Readable) :
    ¬HoldsCall (ownLexemes key.fieldTarget) := by
  refine not_holdsCall_of_no_parenthesis ?_
  rcases h.fieldTarget.2 with ⟨names, hnames, htarget⟩ | ⟨token, htoken, htarget⟩
  · rw [htarget]
    intro hmem
    simp only [List.mem_cons, sign, word, Lexeme.mk.injEq, reduceCtorEq, false_and,
      false_or] at hmem
    rcases hmem with h | h
    · exact absurd h (by decide)
    · exact hnames _ h rfl
  · rw [htarget]
    intro hmem
    have hparen : sign '(' = token := by simpa [sign, word] using hmem
    exact htoken (congrArg Lexeme.kind hparen.symm)

/-- An assignment holds the start of a registration only in its value. -/
private theorem holdsCall_assignmentLexemes {key : PropertyKey} {tokens r : List Lexeme}
    (h : key.Readable) :
    HoldsCall (assignmentLexemes key tokens ++ r) ↔ HoldsCall tokens ∨ HoldsCall r := by
  have hequals : IsApart (sign '=') := isApart_sign (by decide) (by decide)
  have hend : IsApart (sign ';') := isApart_sign (by decide) (by decide)
  rw [assignmentLexemes, List.append_assoc, List.cons_append, List.append_assoc,
    List.singleton_append, holdsCall_append_cons hequals, holdsCall_append_cons hend,
    or_iff_right (not_holdsCall_fieldTarget h)]

private theorem holdsCall_assignments {values : List (Member × List Lexeme)} {r : List Lexeme}
    (h : ∀ value ∈ values, value.1.key.Readable) :
    HoldsCall ((values.flatMap fun value => assignmentLexemes value.1.key value.2) ++ r) ↔
      (∃ value ∈ values, HoldsCall value.2) ∨ HoldsCall r := by
  induction values with
  | nil => simp
  | cons value values ih =>
    rw [List.flatMap_cons, List.append_assoc,
      holdsCall_assignmentLexemes (h value List.mem_cons_self),
      ih fun value hmem => h value (List.mem_cons_of_mem _ hmem), List.exists_mem_cons_iff,
      or_assoc]

/-- The constructor holds the start of a registration only in its values. -/
private theorem holdsCall_constructorLexemes {values : List (Member × List Lexeme)}
    {r : List Lexeme} (h : ∀ value ∈ values, value.1.key.Readable) :
    HoldsCall (constructorLexemes values ++ r) ↔
      (∃ value ∈ values, HoldsCall value.2) ∨ HoldsCall r := by
  cases values with
  | nil => simp [constructorLexemes]
  | cons value values =>
    have hend : IsApart (sign ';') := isApart_sign (by decide) (by decide)
    have hclose : IsApart (sign '\x7d') := isApart_sign (by decide) (by decide)
    have hhead (tail : List Lexeme) : HoldsCall ([word "constructor", sign '(', sign ')',
        sign '\x7b', word "super", sign '(', sign ')', sign ';'] ++ tail) ↔ HoldsCall tail :=
      (holdsCall_append_of_last ⟨[word "constructor", sign '(', sign ')', sign '\x7b',
        word "super", sign '(', sign ')'], rfl⟩ hend).trans
        (or_iff_right (not_holdsCall_of_no_point (by decide)))
    rw [constructorLexemes]
    · rw [List.append_assoc, List.append_assoc, hhead, holdsCall_assignments h,
        List.singleton_append, holdsCall_cons hclose]
    · simp

/-- A method holds the start of a registration only in its parameters and its body. -/
private theorem holdsCall_methodLexemes {key : PropertyKey} {method : Method}
    {params body r : List Lexeme} (hkey : key.Readable)
    (hparams : ReadsAsGroup '(' ')' method.params params)
    (hbody : method.expressionBody = false → ReadsAsGroup '\x7b' '\x7d' method.body body) :
    HoldsCall (methodLexemes key method params body ++ r) ↔
      (HoldsCall params ∨ HoldsCall body) ∨ HoldsCall r := by
  have hend : IsApart (sign ';') := isApart_sign (by decide) (by decide)
  have hopen : IsApart (sign '\x7b') := isApart_sign (by decide) (by decide)
  have hclose : IsApart (sign '\x7d') := isApart_sign (by decide) (by decide)
  have hparen : IsApart (sign ')') := isApart_sign (by decide) (by decide)
  have hreturn : IsApart (word "return") :=
    isApart_word (by decide) fun kind => by cases kind <;> decide
  have hmodifier : sign '.' ∉ method.modifier.lexemes := by
    cases method.modifier <;> decide
  have hname : sign '.' ∉ ownLexemes key.methodName := fun hmem =>
    hkey.methodName.2 _ hmem rfl
  have hhead (tail : List Lexeme) : (params ++ tail).head? ≠ some (sign '.') := by
    obtain ⟨others, hothers⟩ := List.head?_eq_some_iff.mp (hparams.head?_tokens (by decide))
    rw [hothers]
    simp [sign]
  rw [methodLexemes, List.append_assoc, List.append_assoc, List.append_assoc,
    ← List.append_assoc, holdsCall_append_of_no_point ?_ (hhead _),
    holdsCall_append_of_last hparams.last hparen, or_assoc]
  · refine or_congr_right ?_
    cases hexpression : method.expressionBody with
    | true =>
      rw [if_pos rfl, List.cons_append, holdsCall_cons hopen, List.cons_append,
        holdsCall_cons hreturn, List.append_assoc, List.cons_append, holdsCall_append_cons hend,
        List.singleton_append, holdsCall_cons hclose]
    | false =>
      rw [if_neg (by simp), holdsCall_append_of_last (hbody hexpression).last hclose]
  · intro hmem
    rcases List.mem_append.mp hmem with h | h
    · exact hmodifier h
    · exact hname h

private theorem holdsCall_methodsOf {entries : List (Member × Fragments)} {r : List Lexeme}
    (h : ∀ entry ∈ entries, entry.1.ReadsAs entry.2 ∧ entry.1.key.Readable) :
    HoldsCall (methodsOf entries ++ r) ↔
      (∃ entry ∈ entries, ∃ params body, entry.2 = .method params body ∧
        (HoldsCall params ∨ HoldsCall body)) ∨ HoldsCall r := by
  induction entries with
  | nil => simp [methodsOf]
  | cons entry entries ih =>
    have hrest := ih fun e he => h e (List.mem_cons_of_mem _ he)
    obtain ⟨hentry, hkey⟩ := h entry List.mem_cons_self
    obtain ⟨⟨key, method?, text, offset⟩, fragments⟩ := entry
    rw [methodsOf, List.flatMap_cons, ← methodsOf, List.append_assoc, List.exists_mem_cons_iff,
      or_assoc, ← hrest]
    cases fragments with
    | value tokens => simp
    | method params body =>
      obtain ⟨method, rfl, hparams, hbody⟩ := hentry
      have hblock (hexpression : method.expressionBody = false) :
          ReadsAsGroup '\x7b' '\x7d' method.body body := by
        rwa [hexpression] at hbody
      rw [holdsCall_methodLexemes hkey hparams hblock]
      simp

/-- A class holds the start of a registration only in the contents of its members. -/
theorem holdsCall_classLexemes {className parentName : String}
    {entries : List (Member × Fragments)} (hname : isName className.toList = true)
    (hparent : isName parentName.toList = true)
    (h : ∀ entry ∈ entries, entry.1.ReadsAs entry.2 ∧ entry.1.key.Readable) :
    HoldsCall (classLexemes className parentName entries) ↔
      ∃ entry ∈ entries, entry.2.HoldCall := by
  have hopen : IsApart (sign '\x7b') := isApart_sign (by decide) (by decide)
  have hclose : IsApart (sign '\x7d') := isApart_sign (by decide) (by decide)
  have hextends : IsApart (word "extends") :=
    isApart_word (by decide) fun kind => by cases kind <;> decide
  have hnames {s : String} (hs : isName s.toList = true) : ¬HoldsCall (ownLexemes s) :=
    not_holdsCall_of_no_point fun hmem => (readsAnywhere_name hs).2 _ hmem rfl
  have hhead : ¬HoldsCall ([word "export", word "default", word "class"] ++
      ownLexemes className) := by
    refine not_holdsCall_of_no_point fun hmem => ?_
    rcases List.mem_append.mp hmem with h | h
    · exact absurd h (by decide)
    · exact (readsAnywhere_name hname).2 _ h rfl
  have hvalues : ∀ value ∈ valuesOf entries, value.1.key.Readable := fun value hvalue =>
    (h _ (mem_valuesOf.mp hvalue)).2
  rw [classLexemes, ← List.append_assoc, holdsCall_append_cons hextends, or_iff_right hhead,
    holdsCall_append_cons hopen, or_iff_right (hnames hparent),
    holdsCall_constructorLexemes hvalues, holdsCall_methodsOf h, holdsCall_cons hclose,
    or_iff_left (not_holdsCall_of_no_point (by simp))]
  constructor
  · rintro (⟨value, hvalue, hcall⟩ | ⟨entry, hentry, params, body, hmethod, hcall⟩)
    · exact ⟨_, mem_valuesOf.mp hvalue, hcall⟩
    · refine ⟨entry, hentry, ?_⟩
      rw [hmethod]
      exact hcall
  · rintro ⟨⟨m, fragments⟩, hentry, hcall⟩
    cases fragments with
    | value tokens => exact .inl ⟨(m, tokens), mem_valuesOf.mpr hentry, hcall⟩
    | method params body => exact .inr ⟨_, hentry, params, body, rfl, hcall⟩

/-- The contents of some members hold the start of a registration when one of their texts does. -/
theorem exists_holdCall_iff {entries : List (Member × Fragments)} {members : List Member}
    (hmembers : entries.map Prod.fst = members)
    (h : ∀ entry ∈ entries, entry.1.ReadsAs entry.2 ∧ entry.1.key.Readable) :
    (∃ entry ∈ entries, entry.2.HoldCall) ↔
      ∃ text ∈ members.flatMap Member.emitted, HoldsCall (ownLexemes text) := by
  rw [← hmembers]
  simp only [List.mem_flatMap, List.mem_map, exists_exists_and_eq_and]
  constructor
  · rintro ⟨entry, hentry, hcall⟩
    obtain ⟨text, htext, hcall⟩ := (h entry hentry).1.holdCall_iff.mp hcall
    exact ⟨text, ⟨entry, hentry, htext⟩, hcall⟩
  · rintro ⟨text, ⟨entry, hentry, htext⟩, hcall⟩
    exact ⟨entry, hentry, (h entry hentry).1.holdCall_iff.mpr ⟨text, htext, hcall⟩⟩

end ClassModule

end Reclass
