import Reclass.Proofs.Handler.Registration
import Reclass.Proofs.Script.Shift
import Mathlib.Data.List.DropRight

/-!
# The text of a call

A call that registers a handler is a run of tokens, from `NGS` to the parenthesis that closes it.
What is read from the call is decided by this run alone. So two calls with the same text register
the same handler, and only the places of its parts differ.
-/

namespace Reclass

open Script

namespace Registration

/-! ### Arguments at another place -/

/-- The arguments say what the call registers. -/
theorem IsArguments.unique {arguments : List Token} {call call' : Registration}
    (h : IsArguments arguments call) (h' : IsArguments arguments call')
    (hkind : call'.kind = call.kind) :
    call' = { call with strayTokens := call'.strayTokens } := by
  have hread (call : Registration) (h : IsArguments arguments call) :
      read 0 ⟨[], call.kind, arguments⟩ = .ok { call with strayTokens := 0 } :=
    read_eq_ok_iff.mpr ⟨arguments, [], (List.append_nil _).symm, h, rfl, rfl⟩
  have hsame := hread call h
  rw [← hkind, hread call' h', Except.ok.injEq] at hsame
  cases call
  cases call'
  cases hkind
  simpa using hsame

/-- A call that stands `n` bytes further on. -/
def shift (n : Nat) (call : Registration) : Registration :=
  { call with
    nameOffset := call.nameOffset + n
    opener := call.opener.shift n
    body := call.body.map (Token.shift n)
    closer := call.closer.shift n
    parent := call.parent.map fun (name, offset) => (name, offset + n) }

/-- The end of a call stays one further on in the text, and the parent moves with it. -/
theorem CallEnd.shift {ends : List Token} {parent : Option (String × Nat)}
    (h : CallEnd ends parent) (n : Nat) :
    CallEnd (ends.map (Token.shift n)) (parent.map fun (name, offset) => (name, offset + n)) := by
  cases h with
  | close hclose => exact .close (by simpa using hclose)
  | comma hcomma hclose => exact .comma (by simpa using hcomma) (by simpa using hclose)
  | parent hcomma hname hclose =>
    exact .parent (by simpa using hcomma) hname (by simpa using hclose)
  | parentComma hcomma hname hcomma' hclose =>
    exact .parentComma (by simpa using hcomma) hname (by simpa using hcomma')
      (by simpa using hclose)

/-- Arguments say the same further on. -/
theorem IsArguments.shift {arguments : List Token} {call : Registration}
    (h : IsArguments arguments call) (n : Nat) :
    IsArguments (arguments.map (Token.shift n)) (call.shift n) := by
  obtain ⟨name, comma, ends, rfl, hname, hoffset, hcomma, hopener, hends, hgroup⟩ := h
  refine ⟨name.shift n, comma.shift n, ends.map (Token.shift n), ?_, hname, ?_, ?_, ?_,
    hends.shift n, fun rest => ?_⟩
  · simp [Registration.shift]
  · rw [Token.shift_start, hoffset]
    rfl
  · rwa [Token.shift_isPunct]
  · rwa [Registration.shift, Token.shift_isPunct]
  · have hmoved := closeGroup_shift n call.opener (call.body ++ [call.closer])
    rw [hgroup, List.map_append] at hmoved
    exact closeGroup_again hmoved rest

/-! ### The tokens of a call -/

/-- The tokens behind a call, when the call is complete. -/
def Start.behind? (start : Start) : Option (List Token) :=
  match start.arguments with
  | _ :: _ :: opener :: rest =>
    match closeGroup opener rest with
    | .ok literal => ((readParent 0 literal.rest).map Prod.snd).toOption
    | .error _ => none
  | _ => none

/-- The tokens of the first call in a source, from `NGS` to the parenthesis that closes it. -/
def callTokens? (source : String) : Option (List Token) := do
  let tokens ← (tokenize source).toOption
  let start ← findStart? HandlerKind.all tokens
  let behind ← start.behind?
  return (tokens.drop start.before.length).rdrop behind.length

/-- The text of the first call in a source, from `NGS` to the parenthesis that closes it. -/
def callText? (source : String) : Option String :=
  (callTokens? source).map fun tokens => String.ofList (Token.span tokens)

/-- The tokens behind a complete call are those behind its arguments. -/
theorem behind?_eq_some {start : Start} {arguments behind : List Token} {call : Registration}
    (h : IsArguments arguments call) (harguments : start.arguments = arguments ++ behind) :
    start.behind? = some behind := by
  obtain ⟨name, comma, ends, rfl, _, _, _, _, hends, hgroup⟩ := h
  have hparent : readParent 0 (ends ++ behind) = .ok (call.parent, behind) :=
    readParent_eq_ok_iff.mpr ⟨ends, rfl, hends⟩
  simp only [List.cons_append, List.append_assoc] at harguments
  simp only [Start.behind?, harguments, hgroup, hparent]
  rfl

/-- The first call in a source is a run of its tokens: the start of a registration and its
arguments. -/
theorem exists_callTokens? {source : String} {call : Registration}
    (h : first? source = .ok (some call)) :
    ∃ before a b c d arguments behind,
      tokenize source = .ok (before ++ a :: (b :: c :: d :: arguments ++ behind)) ∧
        callTokens? source = some (a :: b :: c :: d :: arguments) ∧
        kindAt? HandlerKind.all a b c d = some call.kind ∧ IsArguments arguments call := by
  obtain ⟨tokens, start, htokens, hstart, hread⟩ := find?_eq_some h
  obtain ⟨a, b, c, d, hsplit, hkind⟩ := findStart?_eq_some hstart
  obtain ⟨arguments, behind, harguments, hcall, hcallKind, _⟩ := read_eq_ok_iff.mp hread
  rw [harguments] at hsplit
  refine ⟨start.before, a, b, c, d, arguments, behind, by rw [htokens, hsplit]; rfl, ?_,
    by rw [hkind, hcallKind], hcall⟩
  have hrun : tokens.drop start.before.length = a :: b :: c :: d :: arguments ++ behind := by
    rw [hsplit, List.drop_left]
    rfl
  have hdrop : (a :: b :: c :: d :: arguments ++ behind).rdrop behind.length =
      a :: b :: c :: d :: arguments := by
    rw [List.rdrop, List.length_append, Nat.add_sub_cancel, List.take_left]
  simp only [callTokens?, htokens, hstart, behind?_eq_some hcall harguments, hrun, hdrop, bind,
    Except.toOption, Option.bind, pure]

private theorem kindAt?_eq_some {kinds : List HandlerKind} {a b c d : Token} {kind : HandlerKind}
    (h : kindAt? kinds a b c d = some kind) :
    a.lexeme = ⟨.ident, "NGS".toList⟩ ∧
      kinds.find? (fun kind => c.isIdent kind.factoryMethod) = some kind := by
  unfold kindAt? at h
  split at h
  · next hcall =>
    simp only [Bool.and_eq_true] at hcall
    obtain ⟨hident, htext⟩ := Token.isIdent_iff.mp hcall.1.1
    exact ⟨by rw [Token.lexeme, hident, htext], h⟩
  · exact absurd h (by simp)

/-- Of two first calls with the same text, the second one is the first one further on, when it
stands no earlier. -/
private theorem shift_of_tokens {source source' : String} {call call' : Registration}
    {before before' arguments arguments' behind behind' : List Token} {a a' b b' c c' d d' : Token}
    {n : Nat}
    (htokens : tokenize source = .ok (before ++ a :: (b :: c :: d :: arguments ++ behind)))
    (htokens' : tokenize source' = .ok (before' ++ a' :: (b' :: c' :: d' :: arguments' ++ behind')))
    (hkind : kindAt? HandlerKind.all a b c d = some call.kind)
    (hkind' : kindAt? HandlerKind.all a' b' c' d' = some call'.kind)
    (hcall : IsArguments arguments call) (hcall' : IsArguments arguments' call')
    (htext : Token.span (a' :: b' :: c' :: d' :: arguments') =
      Token.span (a :: b :: c :: d :: arguments)) (hstop : a'.stop = a.stop + n) :
    call' = { call.shift n with strayTokens := call'.strayTokens } := by
  obtain ⟨hlexeme, hfind⟩ := kindAt?_eq_some hkind
  obtain ⟨hlexeme', hfind'⟩ := kindAt?_eq_some hkind'
  -- only the gap before `NGS` may differ, and nothing is read from that token
  have hrun := run_eq_map_shift htokens htokens' (hlexeme'.trans hlexeme.symm) htext hstop
  simp only [List.map_cons, List.cons.injEq] at hrun
  obtain ⟨_, rfl, _, rfl⟩ := hrun
  simp only [Token.shift_isIdent, hfind, Option.some.injEq] at hfind'
  exact (hcall.shift n).unique hcall' hfind'.symm

/-- Of two first calls with the same text, one is the other one further on. -/
theorem exists_shift_of_callText?_eq {source source' : String} {call call' : Registration}
    (h : first? source = .ok (some call)) (h' : first? source' = .ok (some call'))
    (htext : callText? source' = callText? source) :
    ∃ n, call' = { call.shift n with strayTokens := call'.strayTokens } ∨
      call = { call'.shift n with strayTokens := call.strayTokens } := by
  obtain ⟨before, a, b, c, d, arguments, behind, htokens, hrun, hkind, hcall⟩ :=
    exists_callTokens? h
  obtain ⟨before', a', b', c', d', arguments', behind', htokens', hrun', hkind', hcall'⟩ :=
    exists_callTokens? h'
  have hspan : Token.span (a' :: b' :: c' :: d' :: arguments') =
      Token.span (a :: b :: c :: d :: arguments) := by
    rw [callText?, callText?, hrun, hrun', Option.map_some, Option.map_some,
      Option.some.injEq] at htext
    have hchars := congrArg String.toList htext
    rwa [String.toList_ofList, String.toList_ofList] at hchars
  rcases Nat.le_total a.stop a'.stop with hle | hle
  · obtain ⟨n, hn⟩ := Nat.exists_eq_add_of_le hle
    exact ⟨n, .inl (shift_of_tokens htokens htokens' hkind hkind' hcall hcall' hspan hn)⟩
  · obtain ⟨n, hn⟩ := Nat.exists_eq_add_of_le hle
    exact ⟨n, .inr (shift_of_tokens htokens' htokens hkind' hkind hcall' hcall hspan.symm hn)⟩

end Registration

end Reclass
