import Reclass.Proofs.Handler.Written
import Reclass.Proofs.Handler.Registration

/-!
# The tokens of a member

The texts that a member is made of have tokens of their own. Of a member that is written in a
script, these are the tokens that the script has there.
-/

namespace Reclass

open Script

/-- The tokens that a member leaves besides its key and its modifiers. -/
inductive Fragments where
  | value (tokens : List Lexeme)
  | method (params body : List Lexeme)

/-- The tokens of a parameter list; a name without parentheses gets them. -/
def parameterLexemes : List Token → List Lexeme
  | [name] => [sign '(', name.lexeme, sign ')']
  | tokens => tokens.map Token.lexeme

/-- The tokens of the contents of a member. -/
def Contents.fragments : Contents → Fragments
  | .value tokens => .value (tokens.map Token.lexeme)
  | .method params body => .method (parameterLexemes params) (body.map Token.lexeme)

/-- That a text has some tokens of its own, of which the first and the last one are delimiters. -/
structure ReadsAsGroup (opener closer : Char) (text : String) (tokens : List Lexeme) : Prop where
  head : text.toList.head? = some opener
  last : ∃ inside, tokens = inside ++ [sign closer]
  reads : ReadsAnywhere text.toList tokens

/-- That a member has some tokens of its own. A value and an expression are read where a slash would
start a regular expression. -/
def Member.ReadsAs (m : Member) : Fragments → Prop
  | .value tokens => m.method = none ∧ Script.ReadsAs true m.text.toList tokens
  | .method params body =>
    ∃ method, m.method = some method ∧ ReadsAsGroup '(' ')' method.params params ∧
      if method.expressionBody then Script.ReadsAs true method.body.toList body
      else ReadsAsGroup '\x7b' '\x7d' method.body body

/-- That a key is one token. -/
def PropertyKey.Readable (key : PropertyKey) : Prop :=
  match key.form with
  | .ident => isName key.raw.toList = true
  | .str => ReadsAnywhere key.raw.toList [⟨.str, key.raw.toList⟩]
  | .number => ReadsAnywhere key.raw.toList [⟨.number, key.raw.toList⟩]

section Source

variable {source : String} {tokens : List Token} (h : tokenize source = .ok tokens)

include h

/-- A run between two delimiters is read anywhere. -/
private theorem readsAsGroup_of_run {opener closer : Char} {run : List Token}
    (hrun : run <:+: tokens) (hgroup : IsGroup opener closer run)
    (hspace : isSpace opener = false) (hslash : opener ≠ '/') :
    ReadsAsGroup opener closer (Token.spanText run) (run.map Token.lexeme) := by
  obtain ⟨first, inside, last, rfl, hfirst, hlast, _⟩ := hgroup
  obtain ⟨slash, hreads⟩ := exists_readsAs_of_run h hrun (List.cons_ne_nil _ _)
  have hopener : first.text = [opener] := congrArg Lexeme.text hfirst
  have htext : Token.span (first :: (inside ++ [last])) =
      opener :: Token.run (inside ++ [last]) := by
    rw [Token.span_cons, hopener]
    rfl
  rw [htext] at hreads
  refine ⟨?_, ⟨first.lexeme :: inside.map Token.lexeme, ?_⟩, ?_⟩
  · rw [Token.spanText, String.toList_ofList, htext]
    rfl
  · simp [hlast]
  · rw [Token.spanText, String.toList_ofList, htext]
    exact hreads.anywhere hspace hslash

/-- A key in a script is one token. -/
theorem readable_of_mem {t : Token} {key : PropertyKey} (ht : t ∈ tokens)
    (hkey : Member.readKey t = .ok key) : key.Readable := by
  have hword : t.word.toList = t.text := String.toList_ofList
  unfold Member.readKey at hkey
  split at hkey
  · next hkind =>
    cases hkey
    rw [PropertyKey.Readable, hword]
    exact isName_of_mem h ht hkind
  · next hkind =>
    cases hkey
    have hreads := readsAnywhere_of_mem h ht (by simp [hkind]) (by simp [hkind])
    rw [Token.lexeme, hkind] at hreads
    rwa [PropertyKey.Readable, hword]
  · next hkind =>
    cases hkey
    have hreads := readsAnywhere_of_mem h ht (by simp [hkind]) (by simp [hkind])
    rw [Token.lexeme, hkind] at hreads
    rwa [PropertyKey.Readable, hword]
  · exact absurd hkey (by simp)

/-- A parameter list has its tokens, in parentheses. -/
private theorem readsAsGroup_parameters {run : List Token} {text : String}
    (hrun : run <:+: tokens) (hparams : IsParameterList run text) :
    ReadsAsGroup '(' ')' text (parameterLexemes run) := by
  cases hparams with
  | group hgroup =>
    have hlexemes : parameterLexemes run = run.map Token.lexeme := by
      obtain ⟨first, inside, last, rfl, _⟩ := hgroup
      cases inside <;> rfl
    rw [hlexemes]
    exact readsAsGroup_of_run h hrun hgroup (by decide) (by decide)
  | @bare name hkind =>
    have hmem : name ∈ tokens := hrun.subset (by simp)
    have hreads := readsAnywhere_of_mem h hmem (by simp [hkind]) (by simp [hkind])
    have htext : ("(" ++ name.word ++ ")").toList = '(' :: (name.text ++ [')']) := by
      simp [Token.word]
    refine ⟨by rw [htext]; rfl, ⟨[sign '(', name.lexeme], rfl⟩, ?_⟩
    rw [htext]
    have hclosed : ReadsAnywhere (name.text ++ [')']) [name.lexeme, sign ')'] :=
      fun slash => (hreads slash).mark (by decide) (by decide)
    exact hclosed.mark (by decide)

/-- The contents of a member that is written in a script have the tokens that they have there, and
its key is one token. -/
theorem readsAs_of_writtenAs {segment : List Token} {m : Member} {contents : Contents}
    (hsegment : segment <:+: tokens) (hwritten : Member.WrittenAs segment m contents) :
    m.ReadsAs contents.fragments ∧ m.key.Readable := by
  obtain ⟨key, hmem, hkey⟩ := hwritten.exists_key
  refine ⟨?_, readable_of_mem h (hsegment.subset hmem) hkey⟩
  cases hwritten with
  | @name key _ _ hkind hmethod htext =>
    have hreads := readsAnywhere_of_mem h (hsegment.subset (List.mem_singleton.mpr rfl))
      (by simp [hkind]) (by simp [hkind])
    refine ⟨hmethod, ?_⟩
    rw [htext, Token.spanText, String.toList_ofList, Token.span_cons, Token.run_nil,
      List.append_nil]
    exact hreads true
  | @value key colon run _ _ hcolon htokens hmethod htext =>
    refine ⟨hmethod, ?_⟩
    have hcolonRun : colon :: run <:+: tokens := (List.suffix_cons _ _).isInfix.trans hsegment
    have hreads := readsAs_of_run h hcolonRun htokens
    obtain ⟨hkind, hword⟩ := Token.isPunct_iff.mp hcolon
    have hslash : colon.lexeme.slash = true := by
      rw [Token.lexeme, hkind, hword]
      decide
    rw [hslash] at hreads
    rwa [htext, Token.spanText, String.toList_ofList]
  | @block before params body _ _ method _ _ hmethod hparams hbody htext hblock =>
    have hparamsRun : params <:+: tokens :=
      List.IsInfix.trans ⟨before, body, by simp⟩ hsegment
    have hbodyRun : body <:+: tokens := List.IsInfix.trans ⟨before ++ params, [], by simp⟩ hsegment
    refine ⟨method, hmethod, readsAsGroup_parameters h hparamsRun hparams, ?_⟩
    rw [hblock, htext]
    exact readsAsGroup_of_run h hbodyRun hbody (by decide) (by decide)
  | @arrow before params body _ arrow _ method _ _ hmethod hparams harrow hbody htext hblock =>
    have hparamsRun : params <:+: tokens :=
      List.IsInfix.trans ⟨before, arrow :: body, by simp⟩ hsegment
    have hbodyRun : arrow :: body <:+: tokens :=
      List.IsInfix.trans ⟨before ++ params, [], by simp⟩ hsegment
    refine ⟨method, hmethod, readsAsGroup_parameters h hparamsRun hparams, ?_⟩
    split
    · have hreads := readsAs_of_run h hbodyRun hbody
      obtain ⟨hkind, hword⟩ := Token.isPunct_iff.mp harrow
      have hslash : arrow.lexeme.slash = true := by
        rw [Token.lexeme, hkind, hword]
        decide
      rw [hslash] at hreads
      rwa [htext, Token.spanText, String.toList_ofList]
    · next hexpression =>
      rw [htext]
      refine readsAsGroup_of_run h ((List.suffix_cons _ _).isInfix.trans hbodyRun) (hblock ?_)
        (by decide) (by decide)
      simpa using hexpression

end Source

end Reclass
