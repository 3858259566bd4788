import Reclass.ClassModule
import Reclass.Proofs.Handler.Fragments
import Mathlib.Data.List.Forall2

/-!
# The tokens of a class

The text of a class is glued together from names, signs and the texts of its members. When each of
these has tokens of its own, the text of the class has exactly these tokens, in this order.
-/

namespace Reclass

open Script

/-- The tokens that a text has when it is scanned on its own. -/
def ownLexemes (s : String) : List Lexeme := (lexemes? true s.toList).getD []

/-- A text that can be read anywhere is read on its own with the same tokens. -/
theorem ownLexemes_eq {s : String} {tokens : List Lexeme} (h : ReadsAnywhere s.toList tokens) :
    ownLexemes s = tokens := by
  rw [ownLexemes, (h true).lexemes?]
  rfl

/-- A text that can be read anywhere has the tokens that it has on its own. -/
theorem Script.ReadsAnywhere.own {s : String} {tokens : List Lexeme}
    (h : ReadsAnywhere s.toList tokens) : ReadsAnywhere s.toList (ownLexemes s) := by
  rwa [ownLexemes_eq h]

/-- A modifier as tokens. -/
def Modifier.lexemes : Modifier → List Lexeme
  | .plain => []
  | .async => [word "async"]
  | .generator => [sign '*']
  | .asyncGenerator => [word "async", sign '*']
  | .getter => [word "get"]
  | .setter => [word "set"]

namespace ClassModule

/-- The assignment of a value as tokens. -/
def assignmentLexemes (key : PropertyKey) (tokens : List Lexeme) : List Lexeme :=
  ownLexemes key.fieldTarget ++ sign '=' :: (tokens ++ [sign ';'])

/-- The constructor as tokens; there is none without values. -/
def constructorLexemes : List (Member × List Lexeme) → List Lexeme
  | [] => []
  | values =>
    [word "constructor", sign '(', sign ')', sign '\x7b', word "super", sign '(', sign ')',
      sign ';'] ++
      (values.flatMap fun (m, tokens) => assignmentLexemes m.key tokens) ++ [sign '\x7d']

/-- The declaration of a method as tokens. -/
def methodLexemes (key : PropertyKey) (method : Method) (params body : List Lexeme) :
    List Lexeme :=
  method.modifier.lexemes ++ (ownLexemes key.methodName ++ (params ++
    if method.expressionBody then
      sign '\x7b' :: word "return" :: (body ++ [sign ';', sign '\x7d'])
    else body))

/-- The values among some members, with their tokens. -/
def valuesOf (entries : List (Member × Fragments)) : List (Member × List Lexeme) :=
  entries.filterMap fun
    | (m, .value tokens) => some (m, tokens)
    | _ => none

/-- The methods among some members as tokens. -/
def methodsOf (entries : List (Member × Fragments)) : List Lexeme :=
  entries.flatMap fun
    | (⟨key, some method, _, _⟩, .method params body) => methodLexemes key method params body
    | _ => []

/-- A class as tokens. -/
def classLexemes (className parentName : String) (entries : List (Member × Fragments)) :
    List Lexeme :=
  [word "export", word "default", word "class"] ++ (ownLexemes className ++ (word "extends" ::
    (ownLexemes parentName ++ (sign '\x7b' ::
      (constructorLexemes (valuesOf entries) ++ (methodsOf entries ++ [sign '\x7d']))))))

end ClassModule

/-! ### Keys -/

/-- A name has tokens of its own. -/
theorem readsAnywhere_name {s : String} (h : isName s.toList = true) :
    ReadsAnywhere s.toList (ownLexemes s) ∧ ∀ token ∈ ownLexemes s, token.kind ≠ .punct := by
  obtain ⟨tokens, hkinds, hreads⟩ :=
    (readsNames_of_isNamePart s.toList (isNamePart_of_isName h)).exists_readsAnywhere
  rw [ownLexemes_eq hreads]
  exact ⟨hreads, hkinds⟩

namespace PropertyKey

variable {key : PropertyKey}

/-- A key between brackets. -/
private theorem readsAnywhere_brackets {raw : String} {token : Lexeme}
    (h : ReadsAnywhere raw.toList [token]) :
    ReadsAnywhere ("this[" ++ raw ++ "]").toList
      [word "this", sign '[', token, sign ']'] := by
  have hclosed : ReadsAnywhere (raw.toList ++ [']']) [token, sign ']'] :=
    fun slash => (h slash).mark (by decide) (by decide)
  have hopened := (hclosed.mark (c := '[') (by decide)).word (s := "this") (by decide) rfl
  simpa using hopened

/-- A name behind a point. -/
theorem readsAnywhere_point {name : String} (h : isName name.toList = true) :
    ReadsAnywhere ("this." ++ name).toList (word "this" :: sign '.' :: ownLexemes name) := by
  have hhead : name.toList.head?.any isNameStart := by
    cases hname : name.toList with
    | nil =>
      rw [hname] at h
      exact absurd h (by decide)
    | cons c s =>
      rw [hname] at h
      simp only [isName, Bool.and_eq_true] at h
      simpa using h.1
  have hpoint := ((readsAnywhere_name h).1.point hhead).word (s := "this") (by decide) rfl
  simpa using hpoint

/-- What the constructor assigns to has tokens of its own: `this`, and either a point and the tokens
of a name, or one token in brackets. -/
theorem Readable.fieldTarget (h : key.Readable) :
    ReadsAnywhere key.fieldTarget.toList (ownLexemes key.fieldTarget) ∧
      ((∃ names : List Lexeme, (∀ token ∈ names, token.kind ≠ .punct) ∧
          ownLexemes key.fieldTarget = word "this" :: sign '.' :: names) ∨
        ∃ token : Lexeme, token.kind ≠ .punct ∧
          ownLexemes key.fieldTarget = [word "this", sign '[', token, sign ']']) := by
  unfold Readable at h
  unfold PropertyKey.fieldTarget
  cases hform : key.form with
  | ident =>
    rw [hform] at h
    have hreads := readsAnywhere_point h
    exact ⟨hreads.own, .inl ⟨_, (readsAnywhere_name h).2, ownLexemes_eq hreads⟩⟩
  | str =>
    rw [hform] at h
    dsimp only
    split
    · next hname =>
      have hreads := readsAnywhere_point hname
      exact ⟨hreads.own, .inl ⟨_, (readsAnywhere_name hname).2, ownLexemes_eq hreads⟩⟩
    · have hreads := readsAnywhere_brackets h
      exact ⟨hreads.own, .inr ⟨_, by simp, ownLexemes_eq hreads⟩⟩
  | number =>
    rw [hform] at h
    have hreads := readsAnywhere_brackets h
    exact ⟨hreads.own, .inr ⟨_, by simp, ownLexemes_eq hreads⟩⟩

/-- The name of a method has tokens of its own, none of which is a sign. -/
theorem Readable.methodName (h : key.Readable) :
    ReadsAnywhere key.methodName.toList (ownLexemes key.methodName) ∧
      ∀ token ∈ ownLexemes key.methodName, token.kind ≠ .punct := by
  unfold Readable at h
  unfold PropertyKey.methodName
  cases hform : key.form with
  | ident =>
    rw [hform] at h
    exact readsAnywhere_name h
  | str =>
    rw [hform] at h
    dsimp only
    split
    · next hname => exact readsAnywhere_name hname
    · rw [ownLexemes_eq h]
      exact ⟨h, by simp⟩
  | number =>
    rw [hform] at h
    dsimp only
    rw [ownLexemes_eq h]
    exact ⟨h, by simp⟩

end PropertyKey

/-! ### Blocks -/

namespace ClassModule

variable {style : ModuleStyle} (hindent : style.indent.toList.all isSpace = true)

/-- A modifier before the name of a method. -/
private theorem readsAnywhere_modifier (modifier : Modifier) {text : List Char}
    {tokens : List Lexeme} (h : ReadsAnywhere text tokens) :
    ReadsAnywhere (modifier.text.toList ++ text) (modifier.lexemes ++ tokens) := by
  have hspace : ReadsAnywhere (' ' :: text) tokens := h.blank (c := ' ') (by decide)
  cases modifier with
  | plain => exact h
  | async => exact hspace.word (s := "async") (by decide) rfl
  | generator => exact h.mark (by decide)
  | asyncGenerator =>
    have hstar := (h.mark (c := '*') (by decide)).blank (c := ' ') (by decide)
    exact hstar.word (s := "async") (by decide) rfl
  | getter => exact hspace.word (s := "get") (by decide) rfl
  | setter => exact hspace.word (s := "set") (by decide) rfl

/-- A method reads as its modifier, its name, its parameters and its body. -/
theorem readsAnywhere_methodBlock {key : PropertyKey} {method : Method}
    {params body : List Lexeme} (hkey : key.Readable)
    (hparams : ReadsAsGroup '(' ')' method.params params)
    (hbody : if method.expressionBody then ReadsAs true method.body.toList body
      else ReadsAsGroup '\x7b' '\x7d' method.body body) :
    ReadsAnywhere (methodBlock key method).toList (methodLexemes key method params body) := by
  have hneutral : ∀ text : List Char, (method.params.toList ++ text).head?.any isNeutral := by
    intro text
    obtain ⟨t, ht⟩ := List.head?_eq_some_iff.mp hparams.head
    rw [ht]
    rfl
  cases hexpression : method.expressionBody with
  | true =>
    rw [hexpression, if_pos rfl] at hbody
    have hend : ReadsAnywhere [';', ' ', '\x7d'] [sign ';', sign '\x7d'] :=
      ((readsAnywhere_nil.mark (c := '\x7d') (by decide)).blank (c := ' ')
        (by decide)).mark (by decide)
    have hreturn := (hbody.append hend rfl).word (s := "return") (by decide)
    have hopen := ((hreturn.blank (c := ' ') (by decide)).mark (c := '\x7b')
      (by decide)).blank (c := ' ') (by decide)
    have hhead := hkey.methodName.1.append (hparams.reads.append hopen rfl) (hneutral _)
    have hblock := readsAnywhere_modifier method.modifier hhead
    simpa [methodBlock, methodLexemes, hexpression] using hblock
  | false =>
    rw [hexpression] at hbody
    have hspace := hbody.reads.blank (c := ' ') (by decide)
    have hhead := hkey.methodName.1.append (hparams.reads.append hspace rfl) (hneutral _)
    have hblock := readsAnywhere_modifier method.modifier hhead
    simpa [methodBlock, methodLexemes, hexpression] using hblock

/-- The values are the members that are no methods. -/
private theorem values_eq {entries : List (Member × Fragments)}
    (h : ∀ entry ∈ entries, entry.1.ReadsAs entry.2) :
    (entries.map Prod.fst).filter (!·.isMethod) = (valuesOf entries).map Prod.fst := by
  induction entries with
  | nil => rfl
  | cons entry entries ih =>
    have hrest := ih fun e he => h e (List.mem_cons_of_mem _ he)
    obtain ⟨m, fragments⟩ := entry
    have hentry := h (m, fragments) List.mem_cons_self
    cases fragments with
    | value tokens =>
      have hnone : m.method = none := hentry.1
      have hmethod : m.isMethod = false := by simp [Member.isMethod, hnone]
      simp only [List.map_cons, List.filter_cons, hmethod, hrest]
      rfl
    | method params body =>
      obtain ⟨method, hmethod, _⟩ := hentry
      have hsome : m.method = some method := hmethod
      have hmethod : m.isMethod = true := by simp [Member.isMethod, hsome]
      simp only [List.map_cons, List.filter_cons, hmethod, hrest]
      rfl

/-- The values among some members are the members with the tokens of a value. -/
theorem mem_valuesOf {entries : List (Member × Fragments)} {m : Member} {tokens : List Lexeme} :
    (m, tokens) ∈ valuesOf entries ↔ (m, .value tokens) ∈ entries := by
  rw [valuesOf, List.mem_filterMap]
  constructor
  · rintro ⟨⟨m', fragments⟩, hentry, hvalue⟩
    cases fragments with
    | value tokens' =>
      cases hvalue
      exact hentry
    | method params body => cases hvalue
  · intro hentry
    exact ⟨_, hentry, rfl⟩

private theorem readsAs_of_mem_valuesOf {entries : List (Member × Fragments)}
    (h : ∀ entry ∈ entries, entry.1.ReadsAs entry.2 ∧ entry.1.key.Readable) :
    ∀ v ∈ valuesOf entries, v.1.key.Readable ∧ ReadsAs true v.1.text.toList v.2 := by
  intro v hv
  obtain ⟨⟨_, hreads⟩, hkey⟩ := h _ (mem_valuesOf.mp hv)
  exact ⟨hkey, hreads⟩

include hindent

/-- An assignment before further text. -/
private theorem readsAnywhere_assignment {m : Member} {value tokens : List Lexeme}
    {text : List Char} (hkey : m.key.Readable) (hvalue : ReadsAs true m.text.toList value)
    (h : ReadsAnywhere text tokens) :
    ReadsAnywhere ((assignment style m).toList ++ text)
      (assignmentLexemes m.key value ++ tokens) := by
  have hend : ReadsAnywhere (';' :: '\n' :: text) (sign ';' :: tokens) :=
    (h.blank (c := '\n') (by decide)).mark (by decide)
  have hequals := (hvalue.append hend rfl).equals.blank (c := ' ') (by decide)
  have htarget := ((hkey.fieldTarget.1.append hequals rfl).spaces hindent).spaces hindent
  simpa [assignment, assignmentLexemes] using htarget

/-- The assignments and the end of the constructor. -/
private theorem readsAnywhere_assignments {values : List (Member × List Lexeme)}
    (h : ∀ value ∈ values, value.1.key.Readable ∧ ReadsAs true value.1.text.toList value.2) :
    ReadsAnywhere ((String.join ((values.map Prod.fst).map (assignment style))).toList ++
        (style.indent ++ "\x7d").toList)
      ((values.flatMap fun value => assignmentLexemes value.1.key value.2) ++ [sign '\x7d']) := by
  induction values with
  | nil =>
    have hend := (readsAnywhere_nil.mark (c := '\x7d') (by decide)).spaces hindent
    simpa using hend
  | cons value values ih =>
    obtain ⟨hkey, hvalue⟩ := h value List.mem_cons_self
    have hrest := ih fun value hmem => h value (List.mem_cons_of_mem _ hmem)
    have hcons := readsAnywhere_assignment hindent hkey hvalue hrest
    simpa using hcons

/-- The constructor reads as its tokens. -/
private theorem readsAnywhere_constructor {value : Member × List Lexeme}
    {values : List (Member × List Lexeme)}
    (h : ∀ v ∈ value :: values, v.1.key.Readable ∧ ReadsAs true v.1.text.toList v.2) :
    ReadsAnywhere ("constructor() \x7b\n" ++ style.indent ++ style.indent ++ "super();\n" ++
        String.join (((value :: values).map Prod.fst).map (assignment style)) ++ style.indent ++
        "\x7d").toList
      (constructorLexemes (value :: values)) := by
  have hassignments := readsAnywhere_assignments hindent h
  have hsuper := ((((hassignments.blank (c := '\n') (by decide)).mark (c := ';')
    (by decide)).mark (c := ')') (by decide)).mark (c := '(') (by decide)).word (s := "super")
    (by decide) rfl
  have hopen := (((((((hsuper.spaces hindent).spaces hindent).blank (c := '\n')
    (by decide)).mark (c := '\x7b') (by decide)).blank (c := ' ') (by decide)).mark
    (c := ')') (by decide)).mark (c := '(') (by decide)).word (s := "constructor") (by decide) rfl
  simpa [constructorLexemes] using hopen

/-- Blocks on lines of their own, each indented. -/
private theorem readsAnywhere_blocks {blocks : List String} {lexemes : List (List Lexeme)}
    (h : List.Forall₂ (fun block tokens => ReadsAnywhere block.toList tokens) blocks lexemes)
    {text : List Char} {tokens : List Lexeme} (htext : ReadsAnywhere text tokens) :
    ReadsAnywhere
      (("\n".intercalate (blocks.map fun block => style.indent ++ block ++ "\n")).toList ++ text)
      (lexemes.flatten ++ tokens) := by
  induction h with
  | nil => simpa using htext
  | @cons block blockTokens blocks lexemes hblock hblocks ih =>
    have hrest : ReadsAnywhere ('\n' ::
        ((if blocks = [] then [] else ['\n']) ++ (("\n".intercalate
          (blocks.map fun block => style.indent ++ block ++ "\n")).toList ++ text)))
        (lexemes.flatten ++ tokens) := by
      refine (ih.spaces ?_).blank (c := '\n') (by decide)
      split <;> decide
    have hcons := (hblock.append hrest rfl).spaces hindent
    cases blocks with
    | nil => simpa using hcons
    | cons next blocks => simpa using hcons

/-- The constructor, when there are values. -/
private theorem readsAnywhere_constructorBlock {entries : List (Member × Fragments)}
    (h : ∀ entry ∈ entries, entry.1.ReadsAs entry.2 ∧ entry.1.key.Readable) :
    ∃ lexemes, List.Forall₂ (fun block tokens => ReadsAnywhere block.toList tokens)
      (constructorBlock? style (entries.map Prod.fst)).toList lexemes ∧
      lexemes.flatten = constructorLexemes (valuesOf entries) := by
  have hvalues := readsAs_of_mem_valuesOf h
  rw [constructorBlock?, values_eq fun entry hentry => (h entry hentry).1]
  cases hcases : valuesOf entries with
  | nil => exact ⟨[], .nil, rfl⟩
  | cons value values =>
    rw [hcases] at hvalues
    exact ⟨[_], .cons (readsAnywhere_constructor hindent hvalues) .nil, by simp⟩

omit hindent in
/-- The methods, in the order of the members. -/
private theorem readsAnywhere_methodBlocks {entries : List (Member × Fragments)}
    (h : ∀ entry ∈ entries, entry.1.ReadsAs entry.2 ∧ entry.1.key.Readable) :
    ∃ lexemes, List.Forall₂ (fun block tokens => ReadsAnywhere block.toList tokens)
      ((entries.map Prod.fst).filterMap fun m => m.method.map (methodBlock m.key)) lexemes ∧
      lexemes.flatten = methodsOf entries := by
  induction entries with
  | nil => exact ⟨[], .nil, rfl⟩
  | cons entry entries ih =>
    obtain ⟨lexemes, hlexemes, hflatten⟩ := ih fun e he => h e (List.mem_cons_of_mem _ he)
    obtain ⟨hentry, hkey⟩ := h entry List.mem_cons_self
    obtain ⟨⟨key, method?, text, offset⟩, fragments⟩ := entry
    cases fragments with
    | value tokens =>
      obtain ⟨rfl, _⟩ := hentry
      exact ⟨lexemes, hlexemes, hflatten⟩
    | method params body =>
      obtain ⟨method, rfl, hparams, hbody⟩ := hentry
      refine ⟨methodLexemes key method params body :: lexemes,
        .cons (readsAnywhere_methodBlock hkey hparams hbody) hlexemes, ?_⟩
      rw [List.flatten_cons, hflatten]
      rfl

/-- The text of a class has the tokens of its name, its parent and its members, and no others. -/
theorem readsAnywhere_classText {m : ClassModule} {entries : List (Member × Fragments)}
    (hmembers : entries.map Prod.fst = m.members)
    (h : ∀ entry ∈ entries, entry.1.ReadsAs entry.2 ∧ entry.1.key.Readable)
    (hname : isName m.identity.className.toList = true)
    (hparent : isName m.parent.className.toList = true) :
    ReadsAnywhere (classText style m).toList
      (classLexemes m.identity.className m.parent.className entries) := by
  obtain ⟨lexemes, hconstructor, hconstructorFlatten⟩ := readsAnywhere_constructorBlock hindent h
  obtain ⟨lexemes', hmethods, hmethodsFlatten⟩ := readsAnywhere_methodBlocks h
  have hend : ReadsAnywhere ['\x7d', '\n'] [sign '\x7d'] :=
    (readsAnywhere_nil.blank (c := '\n') (by decide)).mark (by decide)
  have hboth : List.Forall₂ (fun block tokens => ReadsAnywhere block.toList tokens)
      (blocks style (entries.map Prod.fst)) (lexemes ++ lexemes') :=
    List.rel_append hconstructor hmethods
  have hblocks := readsAnywhere_blocks hindent hboth hend
  have hopen := ((hblocks.blank (c := '\n') (by decide)).mark (c := '\x7b')
    (by decide)).blank (c := ' ') (by decide)
  have hextends := ((((readsAnywhere_name hparent).1.append hopen rfl).blank (c := ' ')
    (by decide)).word (s := "extends") (by decide) rfl).blank (c := ' ') (by decide)
  have hclass := (((readsAnywhere_name hname).1.append hextends rfl).blank (c := ' ')
    (by decide)).word (s := "class") (by decide) rfl
  have hdefault := (hclass.blank (c := ' ') (by decide)).word (s := "default")
    (by decide) rfl
  have hexport := (hdefault.blank (c := ' ') (by decide)).word (s := "export")
    (by decide) rfl
  rw [List.flatten_append, hconstructorFlatten, hmethodsFlatten, hmembers] at hexport
  have hstart : "export default class ".toList = "export".toList ++ ([' '] ++
      ("default".toList ++ ([' '] ++ ("class".toList ++ [' '])))) := by decide
  have hmiddle : " extends ".toList = [' '] ++ ("extends".toList ++ [' ']) := by decide
  have hbrace : " \x7b\n".toList = [' '] ++ '\x7b' :: ['\n'] := by decide
  have hclose : "\x7d\n".toList = ['\x7d', '\n'] := by decide
  unfold classText classLexemes
  simp only [String.toList_append, hstart, hmiddle, hbrace, hclose, List.append_assoc,
    List.cons_append, List.nil_append] at hexport ⊢
  exact hexport

end ClassModule

end Reclass
