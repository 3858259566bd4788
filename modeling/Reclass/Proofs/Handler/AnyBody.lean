import Reclass.Proofs.Handler.IndexReading
import Reclass.Proofs.Handler.Segments

/-!
# Members of any tokens

Any run of the tokens of a script can be taken for the inside of a property literal, whether its
groups are closed or not. Reading its members by index comes to members or to a fault, and the texts
of the members are cut out of the script from the start of one of these tokens to the end of another
one.
-/

namespace Reclass

open Script Text

namespace IndexReader

variable {source : List Char} {tokens all run rest body : List Token} {t : Token} {index : Nat}

/-! ### Segments -/

/-- A run of tokens that starts at an index is a piece of them. -/
theorem part_of_drop (h : all.drop index = run ++ rest) (hle : index ≤ all.length) :
    part (extents all) index (index + run.length) = .ok (extents run) := by
  have hlength : (extents all).length = all.length := List.length_map _
  have hrest := congrArg List.length h
  rw [List.length_drop, List.length_append] at hrest
  rw [part, if_pos ⟨by omega, by omega⟩, extents, List.extract_eq_take_drop, ← List.map_drop, h,
    Nat.add_sub_cancel_left, ← List.map_take, List.take_left]
  rfl

/-- A comma that ends a member is found as from the tokens. -/
theorem commaFrom_eq (h : Readable source tokens) (depth index : Nat) :
    commaFrom source depth index (extents tokens) =
      .ok (index + (Member.cutAtComma depth tokens).1.length) := by
  induction tokens generalizing depth index with
  | nil => rfl
  | cons t rest ih =>
    have hnext (depth : Nat) :
        commaFrom source depth (index + 1) (extents rest) =
          .ok (index + (t :: (Member.cutAtComma depth rest).1).length) := by
      rw [ih h.tail, List.length_cons, Nat.add_assoc, Nat.add_comm 1]
    change commaFrom source depth index (.ofToken t :: extents rest) = _
    rw [commaFrom, h.opens_eq List.mem_cons_self, h.closes_eq List.mem_cons_self,
      h.isPunct_eq List.mem_cons_self, Member.cutAtComma]
    simp only [bind, Except.bind, hnext]
    by_cases hcomma : t.isPunct ","
    · -- a comma is no delimiter, so it does not matter which of them is asked for first
      obtain ⟨hopens, hcloses⟩ := Member.not_delimiter_of_comma hcomma
      simp only [hopens, hcloses, hcomma, and_true]
      split <;> rfl
    · simp only [hcomma, Bool.false_eq_true, and_false, if_false]
      cases t.opens? with
      | some b => rfl
      | none => cases t.closes? <;> rfl

/-- Behind the comma that ends a member there are the tokens that are left. -/
theorem cutAtComma_drop (depth : Nat) (tokens : List Token) :
    (Member.cutAtComma depth tokens).2 =
      tokens.drop ((Member.cutAtComma depth tokens).1.length + 1) := by
  induction tokens generalizing depth with
  | nil => rfl
  | cons t rest ih =>
    rw [Member.cutAtComma]
    split
    · rfl
    · exact ih _

/-! ### The members of a literal -/

/-- All places that a member takes are in the table. -/
theorem insert_eq {table : Member.SlotTable} (h : table.Consistent) (new : Member) :
    insert new table = .ok (table.insert new) := by
  rw [insert, if_pos]
  intro place hplace
  obtain ⟨m, hm, -⟩ := h.mem_remove_iff.mp hplace
  exact (List.getElem?_eq_some_iff.mp hm).1

/-- One member is read from the tokens up to the next comma, the others from behind it. -/
private theorem readFrom_of_drop (h : Readable source body) (table : Member.SlotTable)
    {segment after : List Token} (hdrop : body.drop index = t :: rest)
    (hcut : Member.cutAtComma 0 (t :: rest) = (segment, after)) :
    readFrom source (extents body) index table =
      if segment = [] then .error (.fault ⟨.emptyMember, t.start⟩)
      else read source (extents segment) >>= fun m =>
        if m.key.name = "constructor" ∧ m.isMethod then
          .error (.fault ⟨.constructorMethod, m.offset⟩)
        else insert m table >>= readFrom source (extents body) (index + segment.length + 1) := by
  have hlt : index < body.length := (List.getElem?_eq_some_iff.mp
    (List.getElem?_of_drop_eq_cons hdrop)).1
  have hlt' : index < (extents body).length := by rwa [extents, List.length_map]
  have hcomma : commaFrom source 0 index ((extents body).drop index) =
      .ok (index + segment.length) := by
    rw [extents, ← List.map_drop, ← extents, commaFrom_eq (h.drop index), hdrop, hcut]
  have hpart : part (extents body) index (index + segment.length) = .ok (extents segment) := by
    obtain ⟨comma, hsplit⟩ := Member.cutAtComma_append 0 (t :: rest)
    rw [hcut] at hsplit
    exact part_of_drop (hdrop.trans hsplit) (Nat.le_of_lt hlt)
  rw [readFrom, dif_pos hlt']
  split
  · next halt hhalt => cases hhalt.symm.trans hcomma
  · next stop hstop =>
    cases hstop.symm.trans hcomma
    simp only [hpart, bind, Except.bind, tokenAt_of_drop hdrop]
    cases segment <;> rfl

/-- The members from an index on are read as from the tokens. The table has the members that have
been read. -/
theorem readFrom_eq (h : Readable source body) {before : List Member} {table : Member.SlotTable}
    (htable : table.Consistent) (hlive : table.live = before) (hdrop : body.drop index = tokens) :
    readFrom source (extents body) index table = lift (Member.readAll before tokens) := by
  induction before, tokens using Member.readAll.induct generalizing table index with
  | case1 before =>
    have hge : ¬index < (extents body).length := by
      rw [extents, List.length_map, Nat.not_lt]
      exact List.drop_eq_nil_iff.mp hdrop
    rw [readFrom, dif_neg hge, hlive, Member.readAll]
    rfl
  | case2 before t rest after hcut =>
    rw [readFrom_of_drop h table hdrop hcut, Member.readAll_of_empty hcut]
    rfl
  | case3 before t rest first others after hcut ih =>
    obtain ⟨comma, hsplit⟩ := Member.cutAtComma_append 0 (t :: rest)
    have hafter := cutAtComma_drop 0 (t :: rest)
    rw [hcut] at hsplit hafter
    have hsegment : first :: others <:+: body := by
      have hbegins := List.prefix_append (first :: others) (comma ++ after)
      rw [← hsplit, ← hdrop] at hbegins
      exact hbegins.isInfix.trans (List.drop_suffix index body).isInfix
    -- from the index behind the comma on there are the tokens that are left
    have hbehind : body.drop (index + (first :: others).length + 1) = after := by
      rw [Nat.add_assoc, ← List.drop_drop, hdrop]
      exact hafter.symm
    rw [readFrom_of_drop h table hdrop hcut, if_neg (by simp), Member.readAll_of_cut hcut,
      read_eq (h.run hsegment), Member.readOne]
    cases Member.read first others with
    | error e => rfl
    | ok m =>
      simp only [insert_eq htable, bind, Except.bind]
      change (if _ then _ else _) = _
      split
      · rfl
      · exact ih m (htable.insert m) (by rw [htable.live_insert, hlive]) hbehind

/-- The members of a literal are read as from the tokens, whatever tokens of a script it has. -/
theorem members_eq (h : Readable source body) :
    members source (extents body) = lift (Member.ofBody body) :=
  readFrom_eq h Member.SlotTable.consistent_empty rfl List.drop_zero

end IndexReader

/-! ### The texts of members -/

/-- That a text is cut out of a script, from the start of one of some tokens to the end of this or
of a later one. -/
def CutOut (source : String) (tokens : List Token) (text : String) : Prop :=
  ∃ first others, first :: others <:+: tokens ∧
    IsSlice source first.start (Token.lastStop first others) text.toList

/-- That a parameter list is cut out of a script. Parentheses are put around a single name in front
of an arrow. -/
inductive ParametersFrom (source : String) (tokens : List Token) : String → Prop
  | written {params : String} (h : CutOut source tokens params) :
      ParametersFrom source tokens params
  | bare {name arrow : Token} (hrun : [name, arrow] <:+: tokens) (harrow : arrow.isPunct "=>")
      (hname : CutOut source tokens name.word) :
      ParametersFrom source tokens ("(" ++ name.word ++ ")")

/-- That the texts of a method are cut out of a script. -/
structure Method.CutFrom (source : String) (tokens : List Token) (method : Method) : Prop where
  params : ParametersFrom source tokens method.params
  body : CutOut source tokens method.body

/-- That the texts of a member are cut out of a script. -/
structure Member.CutFrom (source : String) (tokens : List Token) (m : Member) : Prop where
  text : CutOut source tokens m.text
  method : ∀ method, m.method = some method → method.CutFrom source tokens

/-- The text of a run of the tokens of a script is cut out of it. -/
theorem cutOut_spanText {source : String} {tokens body run : List Token}
    (h : tokenize source = .ok tokens) (hbody : body <:+: tokens) (hrun : run <:+: body)
    (hne : run ≠ []) : CutOut source body (Token.spanText run) := by
  cases run with
  | nil => exact absurd rfl hne
  | cons first others =>
    refine ⟨first, others, hrun, ?_⟩
    rw [Token.spanText, String.toList_ofList]
    exact isSlice_span h (hrun.trans hbody)

/-- A group has at least its two delimiters. -/
theorem IsGroup.ne_nil {opener closer : Char} {tokens : List Token}
    (h : IsGroup opener closer tokens) : tokens ≠ [] := by
  obtain ⟨first, inside, last, rfl, -⟩ := h
  exact List.cons_ne_nil _ _

namespace Member

section

variable {source : String} {body tokens others : List Token} {first : Token} {m : Member}
  (hspan : ∀ run, run <:+: body → run ≠ [] → CutOut source body (Token.spanText run))

include hspan

/-- A method whose parameter list and block are groups. -/
private theorem cutFrom_of_groups (before after : List Token) {params block : List Token}
    {method : Method}
    (htokens : before ++ (params ++ (block ++ after)) <:+: body) (hparams : IsGroup '(' ')' params)
    (hblock : IsGroup '\x7b' '\x7d' block) (hparamsText : method.params = Token.spanText params)
    (hblockText : method.body = Token.spanText block) : method.CutFrom source body where
  params := by
    have hrun : params <:+: before ++ (params ++ (block ++ after)) :=
      ⟨before, block ++ after, by simp⟩
    rw [hparamsText]
    exact .written (hspan _ (hrun.trans htokens) hparams.ne_nil)
  body := by
    have hrun : block <:+: before ++ (params ++ (block ++ after)) :=
      ⟨before ++ params, after, by simp⟩
    rw [hblockText]
    exact hspan _ (hrun.trans htokens) hblock.ne_nil

/-- The texts of a method that is a value are runs of the value. -/
private theorem readMethod?_cutFrom {stop : Nat} {method : Method} (htokens : tokens <:+: body)
    (h : readMethod? stop tokens = .ok (some method)) : method.CutFrom source body := by
  obtain ⟨function?, hfunction, h⟩ := Except.bind_eq_ok_iff.mp h
  cases function? with
  | some function =>
    cases h
    obtain ⟨before, params, block, rfl, hparams, hblock, hparamsText, hblockText, -⟩ :=
      readFunction?_eq_some hfunction
    rw [← List.append_nil block] at htokens
    exact cutFrom_of_groups hspan before [] htokens hparams hblock hparamsText hblockText
  | none =>
    obtain ⟨before, params, arrow, rest, rfl, hparams, harrow, hrest, hbodyText, -⟩ :=
      readArrow?_eq_some h
    have hbody : rest <:+: before ++ (params ++ arrow :: rest) :=
      ⟨before ++ params ++ [arrow], [], by simp⟩
    refine ⟨?_, hbodyText ▸ hspan _ (hbody.trans htokens) hrest⟩
    generalize method.params = text at hparams
    cases hparams with
    | group hgroup =>
      have hrun : params <:+: before ++ (params ++ arrow :: rest) :=
        ⟨before, arrow :: rest, by simp⟩
      exact .written (hspan _ (hrun.trans htokens) hgroup.ne_nil)
    | @bare name hname =>
      have hrun : [name, arrow] <:+: before ++ ([name] ++ arrow :: rest) :=
        ⟨before, rest, by simp⟩
      have hfirst : [name] <:+: [name, arrow] := ⟨[], [arrow], rfl⟩
      have hword := hspan _ (hfirst.trans (hrun.trans htokens)) (List.cons_ne_nil _ _)
      rw [Token.spanText_singleton] at hword
      exact .bare (hrun.trans htokens) harrow hword

/-- The texts of a member are runs of its tokens. -/
theorem read_cutFrom (hall : first :: others <:+: body) (h : read first others = .ok m) :
    m.CutFrom source body := by
  cases readFrom_of_read h with
  | name hothers hkey hform =>
    subst hothers
    have hword := hspan _ hall (List.cons_ne_nil _ _)
    rw [Token.spanText_singleton, ← (readKey_ident hkey hform).2] at hword
    exact ⟨hword, by simp⟩
  | @value key colon tokens method? hothers hkey hcolon htokens hmethod =>
    subst hothers
    have hvalue : tokens <:+: body := List.IsInfix.trans ⟨[first, colon], [], by simp⟩ hall
    refine ⟨hspan _ hvalue htokens, ?_⟩
    rintro method rfl
    exact readMethod?_cutFrom hspan hvalue hmethod
  | @shorthand before rest t modifier key signature hsplit hkey hsignature hrest =>
    obtain ⟨params, block, rfl, hparams, hblock, hparamsText, hblockText⟩ :=
      readSignature_eq_ok hsignature
    refine ⟨hspan _ hall (List.cons_ne_nil _ _), ?_⟩
    rintro _ ⟨⟩
    rw [hsplit, List.append_cons] at hall
    exact cutFrom_of_groups hspan _ _ hall hparams hblock hparamsText hblockText

end

/-- Whatever run of the tokens of a script is taken for the inside of a property literal, reading
its members by index comes to members or to a fault: nothing is taken out of the tokens or out of
the script that is not there. All texts of the members are cut out of the script between the starts
and the ends of these tokens, but for the parentheses around a single parameter of an arrow
function. -/
theorem members_stay_in_body {source : String} {tokens body : List Token}
    (h : tokenize source = .ok tokens) (hbody : body <:+: tokens) :
    (∃ result, IndexReader.members source.toList (IndexReader.extents body) = .ok result ∧
      ofBody body = .ok result ∧ ∀ m ∈ result, m.CutFrom source body) ∨
    ∃ e, IndexReader.members source.toList (IndexReader.extents body) = .error (.fault e) ∧
      ofBody body = .error e := by
  rw [IndexReader.members_eq ((IndexReader.readable_of_tokenize h).run hbody)]
  cases hread : ofBody body with
  | error e => exact .inr ⟨e, rfl, rfl⟩
  | ok result =>
    refine .inl ⟨result, rfl, rfl, fun m hm => ?_⟩
    obtain ⟨first, others, -, hrun, hmember, -⟩ := writtenAs_of_mem_ofBody hread hm
    exact read_cutFrom (fun run hrun hne => cutOut_spanText h hbody hrun hne) hrun hmember

/-- A bracket that is closed but never opened, and an arrow function without parentheses. -/
theorem members_stay_in_body_of_unbalanced :
    ∃ tokens body result, tokenize "(a: 1], b: é => é" = .ok tokens ∧ body = tokens.drop 1 ∧
      body <:+: tokens ∧
      IndexReader.members "(a: 1], b: é => é".toList (IndexReader.extents body) = .ok result ∧
      result.map (·.text) = ["1]", "é => é"] ∧
      result.map (·.method.map (·.params)) = [none, some "(é)"] ∧
      ∀ m ∈ result, m.CutFrom "(a: 1], b: é => é" body := by
  let tokens := (tokenize "(a: 1], b: é => é").toOption.getD []
  have htokens : tokenize "(a: 1], b: é => é" = .ok tokens := by decide +kernel
  have hbody : tokens.drop 1 <:+: tokens := (List.drop_suffix 1 tokens).isInfix
  have hread : (ofBody (tokens.drop 1)).toOption.map
      (fun result => (result.map (·.text), result.map (·.method.map (·.params)))) =
        some (["1]", "é => é"], [none, some "(é)"]) := by decide +kernel
  obtain ⟨result, hmembers, hresult, hcut⟩ | ⟨e, -, herror⟩ := members_stay_in_body htokens hbody
  · rw [hresult] at hread
    obtain ⟨htexts, hparams⟩ := Prod.mk.inj (Option.some.inj hread)
    exact ⟨tokens, _, result, htokens, rfl, hbody, hmembers, htexts, hparams, hcut⟩
  · rw [herror] at hread
    cases hread

end Member

end Reclass
