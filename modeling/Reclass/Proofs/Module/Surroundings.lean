import Reclass.ModuleTree
import Reclass.Proofs.Handler.CallText
import Reclass.Proofs.Handler.Shift

/-!
# What surrounds a call

The class module that takes the place of a registration is made from the text of the call. The code
and the comments around the call decide at most where in the source a fault is found.
-/

namespace Reclass

open Script

namespace FileError

/-- An error without the position at which it is found. -/
def unplaced : FileError → FileError
  | .malformed path _ reason => .malformed path ⟨1, 1⟩ reason
  | .io path fault => .io path fault
  | .outsideRoot path root => .outsideRoot path root

end FileError

namespace ClassModule

variable (style : ModuleStyle) (n : Nat)

private theorem blocks_shift (members : List Member) :
    blocks style (members.map (Member.shift n)) = blocks style members := by
  have hmethods : (fun m : Member => m.method.map (methodBlock m.key)) ∘ Member.shift n =
      fun m => m.method.map (methodBlock m.key) := rfl
  have hassignment : assignment style ∘ Member.shift n = assignment style := rfl
  have hvalue : (fun m : Member => !m.isMethod) ∘ Member.shift n = fun m => !m.isMethod := rfl
  have hconstructor : constructorBlock? style (members.map (Member.shift n)) =
      constructorBlock? style members := by
    rw [constructorBlock?, constructorBlock?, List.filter_map, hvalue]
    cases members.filter fun m => !m.isMethod with
    | nil => rfl
    | cons value values =>
      simp only [List.map_cons, List.map_map, hassignment]
      rfl
  rw [blocks, blocks, hconstructor, List.filterMap_map, hmethods]

/-- A class module whose members stand `n` bytes further on. -/
def shift (m : ClassModule) : ClassModule := { m with members := m.members.map (Member.shift n) }

/-- The places of the members do not show in the text. -/
theorem text_shift (m : ClassModule) : text style (m.shift n) = text style m := by
  have himport : importText style (m.shift n) = importText style m := rfl
  have hblocks : blocks style (m.shift n).members = blocks style m.members :=
    blocks_shift style n m.members
  have hidentity : (m.shift n).identity = m.identity := rfl
  have hparent : (m.shift n).parent = m.parent := rfl
  have hclass : classText style (m.shift n) = classText style m := by
    unfold classText
    rw [hblocks, hidentity, hparent]
  rw [text, text, himport, hclass]

end ClassModule

namespace ModuleTree

variable (tree : ModuleTree) (disk : Disk) (path : Path)

/-- Members further on in the text need the same imports. -/
theorem renamingImports_shift (bound : List String) (members : List Member) (n : Nat) :
    tree.renamingImports disk path bound (members.map (Member.shift n)) =
      tree.renamingImports disk path bound members := by
  have htexts : (members.map (Member.shift n)).flatMap Member.texts =
      members.flatMap Member.texts := by
    rw [List.flatMap_map]
    rfl
  rw [renamingImports, renamingImports, htexts]

/-- A call that stands somewhere else becomes the same class, or fails for the same reason. -/
theorem convertCall_shift (source source' : String) (call : Registration) (n : Nat) :
    (tree.convertCall disk path source' (call.shift n)).mapError FileError.unplaced =
      (tree.convertCall disk path source call).mapError FileError.unplaced := by
  have hbody : Member.ofBody (call.shift n).body =
      shiftRead n (List.map (Member.shift n)) (Member.ofBody call.body) :=
    Member.ofBody_shift n call.body
  have hname : (call.shift n).name = call.name := rfl
  have hkind : (call.shift n).kind = call.kind := rfl
  have hparent : (call.shift n).parent.map Prod.fst = call.parent.map Prod.fst := by
    rw [Registration.shift, Option.map_map]
    rfl
  rw [convertCall, convertCall, classModule, classModule, hbody, hname, hkind, hparent]
  simp only [bind_assoc]
  refine Except.mapError_bind_congr (List.map (Member.shift n)) ?_ fun members => ?_
  · cases Member.ofBody call.body <;> rfl
  refine Except.mapError_bind_congr id ?_ fun identity => ?_
  · cases Identity.ofName call.name call.kind <;> rfl
  refine Except.mapError_bind_congr id ?_ fun parent => ?_
  · cases Identity.parent (call.parent.map Prod.fst) call.kind tree.basePackage <;> rfl
  refine Except.mapError_bind_congr id ?_ fun specifier => ?_
  · dsimp only [id_eq]
    cases tree.importSpecifier disk path parent.modulePath <;> rfl
  refine Except.mapError_bind_congr id ?_ fun imports => ?_
  · dsimp only [id_eq]
    rw [renamingImports_shift]
    cases tree.renamingImports disk path [parent.className, identity.className] members <;> rfl
  have hmembers : (members.map (Member.shift n)).map (Member.mapText tree.renamings.rename) =
      (members.map (Member.mapText tree.renamings.rename)).map (Member.shift n) := by
    rw [List.map_map, List.map_map]
    rfl
  have htext := ClassModule.text_shift tree.style n
    ⟨identity, parent, specifier, members.map (Member.mapText tree.renamings.rename), imports⟩
  rw [ClassModule.shift] at htext
  simp only [hmembers, id_eq, pure_bind, htext]

/-- Of two calls of which one is the other one further on, both become the same class, or both
fail for the same reason. -/
private theorem convertCall_eq_of_shift {source source' : String} {call call' : Registration}
    {n : Nat} (h : call' = { call.shift n with strayTokens := call'.strayTokens }) :
    (tree.convertCall disk path source' call').mapError FileError.unplaced =
      (tree.convertCall disk path source call).mapError FileError.unplaced := by
  rw [h, ← convertCall_shift tree disk path source source' call n]
  rfl

/-- A source that mentions a factory becomes what its first call becomes. -/
theorem convertSource_of_first? {source : String} {call : Registration}
    (hmention : (HandlerKind.mentionedIn? source).isSome)
    (hcall : Registration.first? source = .ok (some call)) :
    tree.convertSource disk path source =
      (tree.convertCall disk path source call).map .converted := by
  have hsome : (HandlerKind.mentionedIn? source).isNone = false := by
    rw [← Option.not_isSome, hmention]
    rfl
  simp only [convertSource, hsome, Bool.false_eq_true, if_false, hcall]
  change (tree.convertCall disk path source call >>= fun handler =>
    pure (Conversion.converted handler)) = _
  cases tree.convertCall disk path source call <;> rfl

/-- The code and the comments around a call have no influence on what becomes of it. When two
sources mention a factory and their first calls have the same text, from `NGS` to the closing
parenthesis, both become the same class, or both fail for the same reason. -/
theorem convertSource_eq_of_callText?_eq {source source' : String} {call call' : Registration}
    (hmention : (HandlerKind.mentionedIn? source).isSome)
    (hmention' : (HandlerKind.mentionedIn? source').isSome)
    (hcall : Registration.first? source = .ok (some call))
    (hcall' : Registration.first? source' = .ok (some call'))
    (htext : Registration.callText? source' = Registration.callText? source) :
    (tree.convertSource disk path source').mapError FileError.unplaced =
      (tree.convertSource disk path source).mapError FileError.unplaced := by
  have hsame : (tree.convertCall disk path source' call').mapError FileError.unplaced =
      (tree.convertCall disk path source call).mapError FileError.unplaced := by
    obtain ⟨n, h | h⟩ := Registration.exists_shift_of_callText?_eq hcall hcall' htext
    · exact convertCall_eq_of_shift tree disk path h
    · exact (convertCall_eq_of_shift tree disk path h).symm
  have hswap (x : Except FileError ConvertedHandler) :
      (x.map Conversion.converted).mapError FileError.unplaced =
        (x.mapError FileError.unplaced).map Conversion.converted := by
    cases x <;> rfl
  rw [convertSource_of_first? tree disk path hmention hcall,
    convertSource_of_first? tree disk path hmention' hcall', hswap, hswap, hsame]

/-- A call with nothing around it, and the same call between code and comments in which slashes
and quotes have other meanings. -/
theorem convertSource_eq_between_other_code :
    ∃ source source' : String,
      source = "NGS.createLoad('a.x', \x7b f(a) \x7b return a / 2; \x7d \x7d, 'b.y')" ∧
      source' = "/* ' */ let q = \x60'$\x7b/[/']/\x7d\x60 / 2;\n" ++ source ++ " / 2; // (" ∧
      Registration.callText? source' = Registration.callText? source ∧
      (convertSource { root := ⟨"/r"⟩ } ⟨[], []⟩ ⟨"/r/a/b.js"⟩ source').mapError
          FileError.unplaced =
        (convertSource { root := ⟨"/r"⟩ } ⟨[], []⟩ ⟨"/r/a/b.js"⟩ source).mapError
          FileError.unplaced := by
  have hfirst (s : String) (h : (Registration.first? s).toOption.join.isSome) :
      ∃ call, Registration.first? s = .ok (some call) := by
    obtain ⟨call, hcall⟩ := Option.isSome_iff_exists.mp h
    exact ⟨call, Except.toOption_eq_some_iff.mp (Option.join_eq_some_iff.mp hcall)⟩
  refine ⟨_, _, rfl, rfl, by decide +kernel, ?_⟩
  obtain ⟨call, hcall⟩ := hfirst
    "NGS.createLoad('a.x', \x7b f(a) \x7b return a / 2; \x7d \x7d, 'b.y')" (by decide +kernel)
  obtain ⟨call', hcall'⟩ := hfirst
    ("/* ' */ let q = \x60'$\x7b/[/']/\x7d\x60 / 2;\n" ++
      "NGS.createLoad('a.x', \x7b f(a) \x7b return a / 2; \x7d \x7d, 'b.y')" ++ " / 2; // (")
    (by decide +kernel)
  exact convertSource_eq_of_callText?_eq _ _ _ (by decide +kernel) (by decide +kernel) hcall hcall'
    (by decide +kernel)

/-- A call that is refused is refused for the same reason at another place, which is all that
`FileError.unplaced` leaves out. -/
example :
    let convert := convertSource { root := ⟨"/r"⟩ } ⟨[], []⟩ ⟨"/r/b.js"⟩
    let call := "NGS.createLoad('x', \x7b[k]: 1\x7d)"
    convert ("let k;\n" ++ call) ≠ convert call ∧
      (convert ("let k;\n" ++ call)).mapError FileError.unplaced =
        (convert call).mapError FileError.unplaced := by
  decide +kernel

end ModuleTree

end Reclass
