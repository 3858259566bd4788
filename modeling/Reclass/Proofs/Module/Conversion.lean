import Reclass.ModuleTree
import Reclass.Proofs.Outcome

/-!
# What a conversion consists of

A source text is converted when it registers a handler and each part of the class module can be
made. This file takes a successful conversion apart: the registration, the members, the two
identities and the imports.
-/

namespace Reclass

namespace ModuleTree

variable {tree : ModuleTree} {disk : Disk} {path : Path} {source : String}

/-- A class module is made of the members of the registration and of what its names stand for. -/
theorem classModule_eq_ok_iff {call : Registration} {result : ClassModule} :
    tree.classModule disk path source call = .ok result ↔
      ∃ members, Member.ofBody call.body = .ok members ∧
        Identity.ofName call.name call.kind = .ok result.identity ∧
        Identity.parent (call.parent.map Prod.fst) call.kind tree.basePackage =
          .ok result.parent ∧
        tree.importSpecifier disk path result.parent.modulePath = .ok result.parentSpecifier ∧
        tree.renamingImports disk path [result.parent.className, result.identity.className]
          members = .ok result.imports ∧
        result.members = members.map (Member.mapText tree.renamings.rename) := by
  simp only [classModule, Except.bind_eq_ok_iff, Except.mapError_eq_ok_iff]
  constructor
  · rintro ⟨members, hmembers, identity, hidentity, parent, hparent, specifier, hspecifier,
      imports, himports, hresult⟩
    cases hresult
    exact ⟨members, hmembers, hidentity, hparent, hspecifier, himports, rfl⟩
  · rintro ⟨members, hmembers, hidentity, hparent, hspecifier, himports, hresult⟩
    refine ⟨members, hmembers, _, hidentity, _, hparent, _, hspecifier, _, himports, ?_⟩
    rw [← hresult]
    rfl

/-- A call becomes the text of its class module. -/
theorem convertCall_eq_ok_iff {call : Registration} {handler : ConvertedHandler} :
    tree.convertCall disk path source call = .ok handler ↔
      ∃ result, tree.classModule disk path source call = .ok result ∧
        handler = ⟨call.kind, result.identity, result.parent, result.text tree.style⟩ := by
  simp only [convertCall, Except.bind_eq_ok_iff]
  constructor
  · rintro ⟨result, hresult, hhandler⟩
    cases hhandler
    exact ⟨result, hresult, rfl⟩
  · rintro ⟨result, hresult, rfl⟩
    exact ⟨result, hresult, rfl⟩

/-- A text is converted when it mentions a factory, registers a handler in code, and the class
module of that registration can be made. -/
theorem convertSource_eq_converted_iff {handler : ConvertedHandler} :
    tree.convertSource disk path source = .ok (.converted handler) ↔
      (HandlerKind.mentionedIn? source).isSome ∧
        ∃ call result, Registration.first? source = .ok (some call) ∧
          tree.classModule disk path source call = .ok result ∧
          handler = ⟨call.kind, result.identity, result.parent, result.text tree.style⟩ := by
  rw [convertSource]
  cases hmention : HandlerKind.mentionedIn? source with
  | none => simp [pure, Except.pure]
  | some kind =>
    simp only [Option.isNone_some, Bool.false_eq_true, if_false, Option.isSome_some, true_and,
      Except.bind_eq_ok_iff, Except.mapError_eq_ok_iff]
    constructor
    · rintro ⟨call?, hfirst, hcall⟩
      cases call? with
      | none => exact absurd hcall (by simp [pure, Except.pure])
      | some call =>
        obtain ⟨handler', hconvert, heq⟩ := Except.bind_eq_ok_iff.mp hcall
        cases heq
        obtain ⟨result, hresult, rfl⟩ := convertCall_eq_ok_iff.mp hconvert
        exact ⟨call, result, hfirst, hresult, rfl⟩
    · rintro ⟨call, result, hfirst, hresult, rfl⟩
      refine ⟨some call, hfirst, Except.bind_eq_ok_iff.mpr ⟨_, ?_, rfl⟩⟩
      exact convertCall_eq_ok_iff.mpr ⟨result, hresult, rfl⟩

/-- A text stays as it is when it mentions no factory, or mentions none in code. -/
theorem convertSource_eq_unchanged_iff :
    tree.convertSource disk path source = .ok .unchanged ↔
      HandlerKind.mentionedIn? source = none ∨ Registration.first? source = .ok none := by
  rw [convertSource]
  cases hmention : HandlerKind.mentionedIn? source with
  | none => simp [pure, Except.pure]
  | some kind =>
    simp only [Option.isNone_some, Bool.false_eq_true, if_false, reduceCtorEq, false_or,
      Except.bind_eq_ok_iff, Except.mapError_eq_ok_iff]
    constructor
    · rintro ⟨call?, hfirst, hcall⟩
      cases call? with
      | none => exact hfirst
      | some call =>
        obtain ⟨handler, _, heq⟩ := Except.bind_eq_ok_iff.mp hcall
        exact absurd heq (by simp [pure, Except.pure])
    · intro hfirst
      exact ⟨none, hfirst, rfl⟩

end ModuleTree

end Reclass
