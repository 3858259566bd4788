import Reclass.Proofs.Handler.Registration
import Reclass.Proofs.Handler.Written
import Reclass.Proofs.Script.StringValue

/-!
# The names of string keys

A key that is a string denotes the value of that string. The class assigns to a name behind a point,
or declares a method of that name, when the text that was read from the string may be written
without quotes, and repeats the string otherwise. A repeated string denotes the same name
again, so all depends on how a string is read that gives a name.
-/

namespace Reclass

open Script

/-- Which characters beyond ASCII an identifier starts with, and which it goes on with. -/
structure IdentifierChars where
  start : Char → Bool
  part : Char → Bool

namespace IdentifierChars

/-- Whether an identifier can start with a character. -/
def isStart (chars : IdentifierChars) (c : Char) : Bool :=
  if c.toNat < 0x80 then c.isAlpha || c == '$' || c == '_' else chars.start c

/-- Whether an identifier can go on with a character. -/
def isPart (chars : IdentifierChars) (c : Char) : Bool :=
  if c.toNat < 0x80 then c.isAlphanum || c == '$' || c == '_' else chars.part c

/-- Whether a text without escape sequences is an identifier of the language of the scripts. -/
def isIdentifier (chars : IdentifierChars) : List Char → Bool
  | [] => false
  | c :: s => chars.isStart c && s.all chars.isPart

end IdentifierChars

/-- That a text is a string literal with a value. -/
def IsLiteral (text : List Char) (v : List Nat) : Prop :=
  ∃ quote inside, (quote = '"' ∨ quote = '\'') ∧ text = quote :: (inside ++ [quote]) ∧
    StringValue quote inside v

/-- That a property name, as it is written, denotes a name. -/
inductive NameDenotes (chars : IdentifierChars) : String → List Nat → Prop
  | identifier {name : String} (h : chars.isIdentifier name.toList = true) :
      NameDenotes chars name (Text.utf16 name.toList)
  | literal {text : String} {v : List Nat} (h : IsLiteral text.toList v) : NameDenotes chars text v

/-- That a property of `this`, as it is written, is the one with some name. -/
inductive PropertyDenotes (chars : IdentifierChars) : String → List Nat → Prop
  | point {name : String} (h : chars.isIdentifier name.toList = true) :
      PropertyDenotes chars ("this." ++ name) (Text.utf16 name.toList)
  | brackets {text : String} {v : List Nat} (h : IsLiteral text.toList v) :
      PropertyDenotes chars ("this[" ++ text ++ "]") v

section Denotes

variable {chars : IdentifierChars} {name : String} {v : List Nat}

/-- A name without quotes denotes itself. -/
theorem nameDenotes_iff_of_isName (h : isName name.toList = true) :
    NameDenotes chars name v ↔
      chars.isIdentifier name.toList = true ∧ Text.utf16 name.toList = v := by
  constructor
  · intro hdenotes
    cases hdenotes with
    | identifier hname => exact ⟨hname, rfl⟩
    | literal hliteral =>
      obtain ⟨quote, inside, hquote, htext, _⟩ := hliteral
      rw [htext, isName, Bool.and_eq_true] at h
      rcases hquote with rfl | rfl <;> exact absurd h.1 (by decide)
  · rintro ⟨hname, rfl⟩
    exact .identifier hname

/-- A name behind a point denotes itself. -/
theorem propertyDenotes_point_iff :
    PropertyDenotes chars ("this." ++ name) v ↔
      chars.isIdentifier name.toList = true ∧ Text.utf16 name.toList = v := by
  constructor
  · intro hdenotes
    generalize htext : "this." ++ name = text at hdenotes
    have htext := congrArg String.toList htext
    cases hdenotes with
    | @point other hname =>
      have hsame : name.toList = other.toList := by simpa using htext
      rw [hsame]
      exact ⟨hname, rfl⟩
    | brackets => exact absurd htext (by simp)
  · rintro ⟨hname, rfl⟩
    exact .point hname

end Denotes

/-- What is read from a string key is the text that the characters between its quotes stand for. -/
private theorem readKey_str {t : Token} {key : PropertyKey} (h : Member.readKey t = .ok key)
    (hform : key.form = .str) :
    t.kind = .str ∧ key.raw.toList = t.text ∧ key.name.toList = Text.unescape t.inside := by
  unfold Member.readKey at h
  split at h
  · cases h
    exact absurd hform (by simp)
  · cases h
    exact absurd hform (by simp)
  · next hkind =>
    cases h
    refine ⟨hkind, String.toList_ofList, ?_⟩
    rw [Token.textValue?, hkind]
    exact String.toList_ofList
  · exact absurd h (by simp)

namespace Member

/-- A key that is a string is a text between quotes. Both the assignment to it and the declaration
of a method by it are made for the name that the string denotes, exactly when what is read from the
string either may not be written without quotes, or is an identifier that was read from a string
in which nothing is misread. -/
theorem stringKey_denotes_iff {source : String} {call : Registration} {members : List Member}
    {m : Member} (chars : IdentifierChars)
    (hfirst : Registration.first? source = .ok (some call))
    (hmembers : ofBody call.body = .ok members) (hm : m ∈ members) (hform : m.key.form = .str) :
    ∃ quote inside, (quote = '"' ∨ quote = '\'') ∧
      m.key.raw.toList = quote :: (inside ++ [quote]) ∧ Quoted quote inside ∧
      ∀ v, StringValue quote inside v →
        (PropertyDenotes chars m.key.fieldTarget v ↔ (isName m.key.name.toList = true →
          chars.isIdentifier m.key.name.toList = true ∧ hasMisread inside = false)) ∧
        (NameDenotes chars m.key.methodName v ↔ (isName m.key.name.toList = true →
          chars.isIdentifier m.key.name.toList = true ∧ hasMisread inside = false)) := by
  obtain ⟨tokens, htokens, hbody⟩ := Registration.body_isInfix hfirst
  obtain ⟨_, _, _, hsegment, _, hwritten⟩ := writtenAs_of_mem_ofBody hmembers hm
  obtain ⟨t, ht, hkey⟩ := hwritten.exists_key
  obtain ⟨hkind, hraw, hname⟩ := readKey_str hkey hform
  have htoken : t ∈ tokens := (hsegment.trans hbody).subset ht
  obtain ⟨quote, inside, hquote, htext, hquoted⟩ := exists_quoted_of_mem htokens htoken hkind
  have hinside : t.inside = inside := by
    rw [Token.inside, htext, List.drop_one, List.tail_cons, List.dropLast_concat]
  rw [htext] at hraw
  rw [hinside] at hname
  refine ⟨quote, inside, hquote, hraw, hquoted, fun v hvalue => ?_⟩
  have hliteral : IsLiteral m.key.raw.toList v := ⟨quote, inside, hquote, hraw, hvalue⟩
  have hread : Text.utf16 m.key.name.toList = v ↔ hasMisread inside = false := by
    rw [hname]
    exact hvalue.unescape_iff.2
  unfold PropertyKey.fieldTarget PropertyKey.methodName
  rw [hform]
  by_cases hbare : isName m.key.name.toList = true
  · simp only [hbare, if_true, true_imp_iff]
    rw [propertyDenotes_point_iff, nameDenotes_iff_of_isName hbare, hread]
    exact ⟨Iff.rfl, Iff.rfl⟩
  · have hquoted : isName m.key.name.toList = false := by simpa using hbare
    simp only [hquoted, Bool.false_eq_true, if_false, false_imp_iff, iff_true]
    exact ⟨.brackets hliteral, .literal hliteral⟩

/-- The only key of a registration. -/
private theorem exists_member_of_key (source : String) (key : PropertyKey)
    (h : (Registration.first? source).toOption.join.bind (fun call =>
      (ofBody call.body).toOption.map (·.map Member.key)) = some [key]) :
    ∃ call members m, Registration.first? source = .ok (some call) ∧
      ofBody call.body = .ok members ∧ m ∈ members ∧ m.key = key := by
  obtain ⟨call, hfirst, h⟩ := Registration.exists_first?_of_bind h
  obtain ⟨members, hmembers, hkeys⟩ := Option.map_eq_some_iff.mp h
  obtain ⟨m, others, rfl, hkey, _⟩ := List.map_eq_cons_iff.mp hkeys
  exact ⟨call, m :: others, m, hfirst, Except.toOption_eq_some_iff.mp hmembers,
    List.mem_cons_self, hkey⟩

/-- A backslash before a letter that has no other meaning behind it. -/
theorem stringKey_denotes_of_letter :
    ∃ call members m,
      Registration.first? "NGS.createLoad('a.x', \x7b 'o\\k': 1 \x7d)" = .ok (some call) ∧
      ofBody call.body = .ok members ∧ m ∈ members ∧ m.key.fieldTarget = "this.ok" ∧
      StringValue '\'' ['o', '\\', 'k'] [0x6f, 0x6b] ∧
      PropertyDenotes ⟨fun _ => false, fun _ => false⟩ m.key.fieldTarget [0x6f, 0x6b] ∧
      NameDenotes ⟨fun _ => false, fun _ => false⟩ m.key.methodName [0x6f, 0x6b] := by
  have hvalue : StringValue '\'' ['o', '\\', 'k'] [0x6f, 0x6b] :=
    .plain (by decide) (by decide) (by decide)
      (.escape (.identity (by decide) (by decide) (by decide) (by decide)) (by decide) (by decide)
        .nil)
  obtain ⟨call, members, m, hfirst, hmembers, hm, hkey⟩ := exists_member_of_key
    "NGS.createLoad('a.x', \x7b 'o\\k': 1 \x7d)" ⟨"'o\\k'", "ok", .str⟩ (by decide +kernel)
  obtain ⟨quote, inside, _, hraw, _, hdenotes⟩ :=
    stringKey_denotes_iff ⟨fun _ => false, fun _ => false⟩ hfirst hmembers hm (by rw [hkey])
  have hspelled : ['\''] ++ (['o', '\\', 'k'] ++ ['\'']) = [quote] ++ (inside ++ [quote]) := by
    rw [hkey] at hraw
    exact hraw
  obtain ⟨hquote, hinside⟩ := List.append_inj hspelled rfl
  obtain rfl := List.head_eq_of_cons_eq hquote
  obtain rfl := List.append_cancel_right hinside
  obtain ⟨hfield, hmethod⟩ := hdenotes _ hvalue
  have hright : isName m.key.name.toList = true →
      IdentifierChars.isIdentifier ⟨fun _ => false, fun _ => false⟩ m.key.name.toList = true ∧
        hasMisread ['o', '\\', 'k'] = false := by
    rw [hkey]
    decide
  exact ⟨call, members, m, hfirst, hmembers, hm, by rw [hkey]; decide, hvalue, hfield.mpr hright,
    hmethod.mpr hright⟩

/-- A letter that is written by its number is read as the letter `x` and the digits, and the class
assigns to another name than the key denotes. -/
theorem hexadecimal_key_denotes_other_name :
    ∃ call members m,
      Registration.first? "NGS.createLoad('a.x', \x7b '\\x41': 1 \x7d)" = .ok (some call) ∧
      ofBody call.body = .ok members ∧ m ∈ members ∧
      IsLiteral m.key.raw.toList (Text.utf16 ['A']) ∧ m.key.fieldTarget = "this.x41" ∧
      ∀ chars, ¬PropertyDenotes chars m.key.fieldTarget (Text.utf16 ['A']) ∧
        ¬NameDenotes chars m.key.methodName (Text.utf16 ['A']) := by
  obtain ⟨call, members, m, hfirst, hmembers, hm, hkey⟩ := exists_member_of_key
    "NGS.createLoad('a.x', \x7b '\\x41': 1 \x7d)" ⟨"'\\x41'", "x41", .str⟩ (by decide +kernel)
  have hdigits : HexDigits 0 ['4', '1'] 0x41 := .cons rfl (.cons rfl (.nil _))
  have hvalue : StringValue '\'' ['\\', 'x', '4', '1'] (Text.utf16 ['A']) :=
    .escape (.hex rfl hdigits) (by decide) (by decide) .nil
  have hliteral : IsLiteral m.key.raw.toList (Text.utf16 ['A']) := by
    rw [hkey]
    exact ⟨'\'', ['\\', 'x', '4', '1'], .inr rfl, rfl, hvalue⟩
  have hother : Text.utf16 "x41".toList ≠ Text.utf16 ['A'] := by decide
  refine ⟨call, members, m, hfirst, hmembers, hm, hliteral, by rw [hkey]; decide, fun chars => ?_⟩
  have hfield : m.key.fieldTarget = "this." ++ "x41" := by
    rw [hkey]
    decide
  have hmethod : m.key.methodName = "x41" := by
    rw [hkey]
    decide
  rw [hfield, hmethod, propertyDenotes_point_iff, nameDenotes_iff_of_isName (by decide)]
  exact ⟨fun h => hother h.2, fun h => hother h.2⟩

end Member

end Reclass
