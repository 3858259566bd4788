import Reclass.Proofs.Handler.CallText
import Reclass.Proofs.Module.Conversion

/-!
# Calls that are not looked for

Before its tokens are read, a source is asked whether it mentions a factory, spelled without gaps.
A call in which the factory is spelled in this way is always looked at. One with white space or
comments inside of the factory is looked at only when there is such a mention somewhere else.
-/

namespace Reclass

open Script

/-- A source mentions a factory when it holds its text. -/
theorem HandlerKind.mentionedIn?_isSome_iff {source : String} :
    (mentionedIn? source).isSome ↔
      ∃ kind : HandlerKind, kind.factory.toList <:+: source.toList := by
  simp only [mentionedIn?, List.find?_isSome, Text.occursIn_iff]
  constructor
  · rintro ⟨kind, _, hkind⟩
    exact ⟨kind, hkind⟩
  · rintro ⟨kind, hkind⟩
    refine ⟨kind, ?_, hkind⟩
    cases kind <;> simp [all]

namespace Registration

/-- How the factory is spelled in the first call of a source, the gaps inside of it included. -/
def factoryText? (source : String) : Option String :=
  (callTokens? source).map fun tokens => String.ofList (Token.span (tokens.take 3))

/-- A factory is spelled in the source as it is spelled in the call. -/
theorem factoryText?_isInfix {source text : String} {call : Registration}
    (h : first? source = .ok (some call)) (htext : factoryText? source = some text) :
    text.toList <:+: source.toList := by
  obtain ⟨before, a, b, c, d, arguments, behind, htokens, hrun, _⟩ := exists_callTokens? h
  rw [factoryText?, hrun, Option.map_some, Option.some.injEq] at htext
  have hfactory : [a, b, c] <:+: before ++ a :: (b :: c :: d :: arguments ++ behind) :=
    ⟨before, d :: arguments ++ behind, by simp⟩
  rw [← htext, String.toList_ofList]
  exact span_isInfix htokens hfactory

end Registration

namespace ModuleTree

/-- A source with a call stays as it is exactly when the name of neither factory is spelled anywhere
in it. This is never so when the call itself spells its factory without gaps. -/
theorem call_unchanged_iff_not_mentioned (tree : ModuleTree) (disk : Disk) (path : Path)
    {source : String} {call : Registration} (h : Registration.first? source = .ok (some call)) :
    (tree.convertSource disk path source = .ok .unchanged ↔
        ∀ kind : HandlerKind, ¬kind.factory.toList <:+: source.toList) ∧
      (Registration.factoryText? source = some call.kind.factory →
        (HandlerKind.mentionedIn? source).isSome ∧
          tree.convertSource disk path source ≠ .ok .unchanged) := by
  have hunchanged : tree.convertSource disk path source = .ok .unchanged ↔
      ∀ kind : HandlerKind, ¬kind.factory.toList <:+: source.toList := by
    rw [convertSource_eq_unchanged_iff, h, ← not_exists,
      ← HandlerKind.mentionedIn?_isSome_iff]
    simp
  refine ⟨hunchanged, fun htext => ?_⟩
  have hfactory := Registration.factoryText?_isInfix h htext
  exact ⟨HandlerKind.mentionedIn?_isSome_iff.mpr ⟨call.kind, hfactory⟩,
    fun h => hunchanged.mp h call.kind hfactory⟩

/-- A call whose factory is spelled without gaps, behind a comment and before one. -/
theorem call_between_comments_not_unchanged :
    ∃ source : String,
      source = "// NGS\nNGS.createLoad /* ( */ ('a.x', \x7b\x7d)" ∧
      Registration.factoryText? source = some HandlerKind.load.factory ∧
      convertSource { root := ⟨"/r"⟩ } ⟨[], []⟩ ⟨"/r/a/b.js"⟩ source ≠ .ok .unchanged := by
  have hcall : Registration.first? "// NGS\nNGS.createLoad /* ( */ ('a.x', \x7b\x7d)" = .ok (some
      { kind := .load, name := "a.x", nameOffset := 31,
        opener := ⟨.punct, [' '], 38, ['\x7b']⟩, body := [],
        closer := ⟨.punct, [], 39, ['\x7d']⟩, parent := none, strayTokens := 0 }) := by
    decide +kernel
  have hresult := call_unchanged_iff_not_mentioned { root := ⟨"/r"⟩ } ⟨[], []⟩ ⟨"/r/a/b.js"⟩ hcall
  have hfactory : Registration.factoryText? "// NGS\nNGS.createLoad /* ( */ ('a.x', \x7b\x7d)" =
      some HandlerKind.load.factory := by
    decide +kernel
  exact ⟨_, rfl, hfactory, (hresult.2 hfactory).2⟩

/-- A call whose factory is spelled on two lines is found among the tokens, but the source is not
looked at. -/
theorem call_on_two_lines_unchanged :
    ∃ source : String, source = "NGS\n  .createLoad('a.x', \x7b\x7d)" ∧
      (∃ call, Registration.first? source = .ok (some call)) ∧
      HandlerKind.mentionedIn? source = none ∧
      convertSource { root := ⟨"/r"⟩ } ⟨[], []⟩ ⟨"/r/a/b.js"⟩ source = .ok .unchanged := by
  have hcall : Registration.first? "NGS\n  .createLoad('a.x', \x7b\x7d)" = .ok (some
      { kind := .load, name := "a.x", nameOffset := 18,
        opener := ⟨.punct, [' '], 25, ['\x7b']⟩, body := [],
        closer := ⟨.punct, [], 26, ['\x7d']⟩, parent := none, strayTokens := 0 }) := by
    decide +kernel
  exact ⟨_, rfl, ⟨_, hcall⟩, by decide +kernel, by decide +kernel⟩

end ModuleTree

end Reclass
