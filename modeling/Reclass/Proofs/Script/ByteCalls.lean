import Reclass.Proofs.Script.ByteTokens
import Reclass.Proofs.Script.Calls

/-!
# Calls of a reader of bytes

A reader that goes over the bytes of a script gives the tokens and the faults of the stream of its
characters, call for call. So it never cuts a piece out of the script that is not there, and each
call ends after no more steps than the script has bytes and four, whatever came of the calls before
it.
-/

namespace Reclass.Script

open Text

namespace ByteReader

variable {source : List Char}

/-! ### The start of a script -/

/-- That a text is the byte order mark that a script starts with, or nothing where it has none. -/
private def IsMark (source mark : List Char) : Prop :=
  mark = ['\ufeff'] ∨ mark = [] ∧ source.head? ≠ some '\ufeff'

/-- What only the start of a script may hold is a mark, and perhaps a line behind it. -/
private theorem lead_cases (source : List Char) :
    ∃ mark rest, source = mark ++ rest ∧ IsMark source mark ∧
      (lead source).1 =
        if ['#', '!'].isPrefixOf rest then mark ++ rest.takeWhile (· != '\n') else mark := by
  unfold lead
  split
  next mark rest hpair =>
    have hmark : source = mark ++ rest ∧ IsMark source mark := by
      split at hpair
      · cases hpair
        exact ⟨rfl, .inl rfl⟩
      · next hnone =>
        cases hpair
        refine ⟨rfl, .inr ⟨rfl, fun hhead => ?_⟩⟩
        obtain ⟨t, rfl⟩ := List.head?_eq_some_iff.mp hhead
        exact hnone t rfl
    refine ⟨mark, rest, hmark.1, hmark.2, ?_⟩
    split
    · rfl
    · next hnone =>
      refine (if_neg fun hbegins => ?_).symm
      obtain ⟨t, ht⟩ := List.isPrefixOf_iff_prefix.mp hbegins
      exact hnone t ht.symm

private theorem leadEnd_eq {mark rest : List Char} (hsource : source = mark ++ rest)
    (hmark : IsMark source mark) :
    leadEnd source 0 =
      if ['#', '!'].isPrefixOf rest then lineEnd source (byteLength mark)
      else .ok (byteLength mark) := by
  have htail : TailAt source (byteLength mark) rest := ⟨mark, hsource, rfl⟩
  have hsize : (if source.head? = some '\ufeff' then '\ufeff'.utf8Size else 0) =
      byteLength mark := by
    rcases hmark with rfl | ⟨rfl, hhead⟩
    · rw [hsource]
      rfl
    · rw [if_neg hhead]
      rfl
  rw [leadEnd, if_neg (by simp)]
  dsimp only
  rw [hsize, htail.tailFrom?_eq]

/-- At the start of a script a reader skips its lead. -/
theorem gapEnd_lead (source : List Char) :
    (leadEnd source 0 >>= gapEnd source) = gapEnd source (byteLength (lead source).1) := by
  obtain ⟨mark, rest, hsource, hmark, hlead⟩ := lead_cases source
  have htail : TailAt source (byteLength mark) rest := ⟨mark, hsource, rfl⟩
  rw [leadEnd_eq hsource hmark, hlead]
  split
  · rw [gapEnd_lineEnd htail, byteLength_append]
  · rfl

/-- Where a script has no lead, none is skipped. -/
theorem leadEnd_of_lead_eq_nil (h : (lead source).1 = []) : leadEnd source 0 = .ok 0 := by
  obtain ⟨mark, rest, hsource, hmark, hlead⟩ := lead_cases source
  rw [h] at hlead
  rw [leadEnd_eq hsource hmark]
  split
  · next hbegins =>
    obtain ⟨t, rfl⟩ := List.isPrefixOf_iff_prefix.mp hbegins
    rw [if_pos hbegins] at hlead
    simp at hlead
  · next hbegins =>
    rw [if_neg hbegins] at hlead
    rw [← hlead]
    rfl

/-! ### Streams -/

/-- That a reader of bytes is where a stream of the same script is. What only the start of a script
may hold the reader may still have in front of it. -/
structure Follows (source : String) (head : Head) (stream : TokenStream) : Prop where
  place : stream.offset + byteLength stream.rest = byteLength source.toList
  behind : stream.rest <:+ (lead source.toList).2
  skips : ∃ pos, Reaches source.toList pos stream.rest ∧
    (leadEnd source.toList head.pos >>= gapEnd source.toList) = gapEnd source.toList pos
  slash : stream.rest ≠ [] → regexAllowed source.toList head.last = .ok stream.slash

/-- A reader at the start of a script follows its stream. -/
theorem follows_ofSource (source : String) :
    Follows source ⟨0, none⟩ (TokenStream.ofSource source) := by
  have hlead := lead_append source.toList
  refine ⟨?_, List.suffix_refl _, ⟨_, .inl ⟨_, hlead.symm, rfl⟩, gapEnd_lead _⟩, fun _ => rfl⟩
  rw [TokenStream.ofSource, ← byteLength_append, hlead]

/-- A reader behind a call follows a stream when it has reached the same place. -/
private theorem follows_of_reaches {source : String} {head : Head} {stream : TokenStream}
    (hplace : stream.offset + byteLength stream.rest = byteLength source.toList)
    (hbehind : stream.rest <:+ (lead source.toList).2)
    (hreaches : Reaches source.toList head.pos stream.rest)
    (hslash : stream.rest ≠ [] → regexAllowed source.toList head.last = .ok stream.slash) :
    Follows source head stream := by
  have hlead : leadEnd source.toList head.pos = .ok head.pos := by
    by_cases hpos : head.pos = 0
    · -- nothing has been passed, so there was no lead either
      have htail : TailAt source.toList 0 stream.rest := by
        rcases hreaches with htail | ⟨-, hend⟩
        · rwa [hpos] at htail
        · omega
      have hsize := htail.add_byteLength
      have hwhole := congrArg byteLength (lead_append source.toList)
      obtain ⟨skipped, hskipped⟩ := hbehind
      rw [byteLength_append, ← hskipped, byteLength_append] at hwhole
      rw [hpos]
      refine leadEnd_of_lead_eq_nil ?_
      by_contra hne
      have hlt := byteLength_pos hne
      omega
    · rw [leadEnd, if_pos hpos]
  exact ⟨hplace, hbehind, ⟨head.pos, hreaches, by rw [hlead]; rfl⟩, hslash⟩

/-- What a call of a stream tells about the bytes of the script. -/
def answerOf : Except SyntaxError (Option Token) → Except Halt (Option Extent)
  | .ok token? => .ok (token?.map .ofToken)
  | .error e => .error (.fault e)

/-- What comes of a call that gives an answer and leaves the reader at a place. -/
def outcomeOf (head : Head) :
    Except Halt (Option Extent) → Except (Halt × Head) (Option Extent × Head)
  | .ok token? => .ok (token?, head)
  | .error halt => .error (halt, head)

/-- A call gives what the stream gives, and the reader follows the stream on. -/
theorem Follows.next {source : String} {head : Head} {stream : TokenStream} {steps : Nat}
    (h : Follows source head stream) (hsteps : byteLength source.toList + 4 ≤ steps) :
    ∃ head', Follows source head' stream.next.2 ∧
      nextToken source.toList steps head = outcomeOf head' (answerOf stream.next.1) := by
  obtain ⟨hplace, hbehind, ⟨pos, hreaches, hskip⟩, hslash⟩ := h
  rcases hreaches with htail | ⟨hrest, hpos⟩
  · have hsteps : byteLength source.toList + 4 ≤ steps + pos := by omega
    have hmirrors := nextToken_mirrors htail hskip hslash hsteps
    have hpos : pos = stream.offset := by
      have hsize := htail.add_byteLength
      omega
    have happend := gap_append stream.rest
    have hgap : (gap stream.rest).2 <:+ (lead source.toList).2 :=
      (gap_suffix stream.rest).trans hbehind
    unfold TokenStream.next
    cases hafter : (gap stream.rest).2 with
    | nil =>
      rw [hafter, List.append_nil] at happend
      rw [hafter] at hmirrors
      have hreaches : Reaches source.toList (byteLength source.toList) [] :=
        .inl ⟨source.toList, (List.append_nil _).symm, rfl⟩
      refine ⟨_, follows_of_reaches ?_ List.nil_suffix hreaches fun hne => absurd rfl hne, hmirrors⟩
      dsimp only
      rw [happend]
      exact hplace
    | cons c after =>
      rw [hafter] at happend hmirrors hgap
      have hleaves := leaves_lexeme stream.slash c after
      have hskipped := congrArg byteLength happend
      rw [byteLength_append] at hskipped
      subst hpos
      dsimp only at hmirrors ⊢
      cases hread : lexeme stream.slash c after with
      | done token rest hlt =>
        rw [hread] at hmirrors hleaves
        simp only [Reading.outcome] at hmirrors
        generalize nextToken source.toList steps head = reached at hmirrors
        cases hmirrors with
        | done hgives =>
          obtain ⟨rfl, -, htoken⟩ := hgives
          refine ⟨_, follows_of_reaches ?_ (List.IsSuffix.trans hleaves hgap) (.inl htoken.append)
            fun _ => regexAllowed_extentAt htoken, rfl⟩
          exact htoken.append.add_byteLength
      | failed failure =>
        rw [hread] at hmirrors hleaves
        obtain ⟨⟨before, hsite⟩, hrest⟩ := hleaves
        have hrestSize : byteLength failure.rest ≤ byteLength (c :: after) := by
          obtain ⟨before', hrest⟩ := hrest
          rw [← hrest, byteLength_append]
          omega
        have hsiteSize := congrArg byteLength hsite
        rw [byteLength_append] at hsiteSize
        simp only [Reading.outcome] at hmirrors
        generalize nextToken source.toList steps head = reached at hmirrors
        cases hmirrors with
        | failed hreaches hslash =>
          refine ⟨_, follows_of_reaches ?_ (hrest.trans hgap) hreaches hslash, ?_⟩
          · dsimp only
            omega
          · have hoffset : byteLength source.toList - byteLength failure.site =
                stream.offset + byteLength (gap stream.rest).1 +
                  (byteLength (c :: after) - byteLength failure.site) := by
              omega
            rw [hoffset]
            rfl
  · -- behind a last backslash there is nothing
    have hgap : gap stream.rest = ([], []) := by
      rw [hrest]
      exact gap_of_separator?_eq_none rfl
    have hend : gapEnd source.toList pos = .ok pos := gapEnd_of_le (by omega)
    have hunit : unitAt source.toList pos = none := unitAt_eq_none_iff.mpr (by omega)
    obtain ⟨steps, rfl⟩ := Nat.exists_eq_add_of_le' (show 1 ≤ steps by omega)
    have hnext : nextToken source.toList (steps + 1) head = .ok (none, ⟨pos, head.last⟩) := by
      rw [nextToken, hskip, hend]
      simp only [move, Except.mapError, bind, Except.bind, hunit]
      rfl
    have hnone : stream.next = (.ok none, ⟨stream.offset, [], stream.slash⟩) := by
      unfold TokenStream.next
      rw [hgap]
      rfl
    rw [hrest] at hplace
    rw [hnone]
    exact ⟨⟨pos, head.last⟩, follows_of_reaches hplace List.nil_suffix (.inr ⟨rfl, hpos⟩)
      fun hne => absurd rfl hne, hnext⟩

/-- The calls of a reader give what the calls of the stream give. -/
theorem Follows.calls_eq {source : String} {head : Head} {stream : TokenStream} {steps : Nat}
    (h : Follows source head stream) (hsteps : byteLength source.toList + 4 ≤ steps) (n : Nat) :
    calls source.toList steps n head = (stream.calls n).map answerOf := by
  induction n generalizing head stream with
  | zero => rfl
  | succ n ih =>
    obtain ⟨head', hfollows, hnext⟩ := h.next hsteps
    rw [calls, hnext, TokenStream.calls, List.map_cons, ← ih hfollows]
    cases answerOf stream.next.1 <;> rfl

/-! ### All calls of a script -/

/-- What comes of the first `n` calls of a reader of a script. -/
def answers (source : String) (steps n : Nat) : List (Except Halt (Option Extent)) :=
  calls source.toList steps n ⟨0, none⟩

/-- The tokens among some answers. -/
def extentsOf (answers : List (Except Halt (Option Extent))) : List Extent :=
  answers.filterMap fun answer => answer.toOption.join

/-- With steps enough, the reader of bytes answers every call as the token stream does. -/
theorem answers_eq (source : String) {steps : Nat} (hsteps : source.utf8ByteSize + 4 ≤ steps)
    (n : Nat) :
    answers source steps n = ((TokenStream.ofSource source).calls n).map answerOf :=
  (follows_ofSource source).calls_eq (by rwa [byteLength_toList]) n

/-- The tokens among the answers are those of the stream. -/
private theorem extentsOf_map_answerOf (answers : List (Except SyntaxError (Option Token))) :
    extentsOf (answers.map answerOf) =
      (TokenStream.tokensOf answers).map .ofToken := by
  induction answers with
  | nil => rfl
  | cons answer answers ih =>
    rw [extentsOf, TokenStream.tokensOf] at ih
    rw [extentsOf, TokenStream.tokensOf, List.map_cons, List.filterMap_cons, List.filterMap_cons,
      ih]
    cases answer with
    | error e => rfl
    | ok token? => cases token? <;> rfl

/-- However often a reader is asked for a token, also behind errors: no call cuts a piece out of the
script that is not there or runs out of steps, each token is a piece of the script with characters
in it, between two of its places and behind all tokens before it, and behind a call that finds no
token none finds one. -/
theorem answers_stay_in_script (source : String) {steps : Nat}
    (hsteps : source.utf8ByteSize + 4 ≤ steps) (n : Nat) :
    (∀ halt, .error halt ∈ answers source steps n → ∃ e, halt = .fault e) ∧
    (∀ t, .ok (some t) ∈ answers source steps n →
      t.start < t.stop ∧ t.stop ≤ source.utf8ByteSize ∧ IsPlace source.toList t.start ∧
        IsPlace source.toList t.stop ∧ ∃ text, IsSlice source t.start t.stop text) ∧
    (extentsOf (answers source steps n)).Pairwise (fun t u => t.stop ≤ u.start) ∧
    (∀ i j : Nat, (answers source steps n)[i]? = some (.ok none) → i ≤ j → j < n →
      (answers source steps n)[j]? = some (.ok none)) ∧
    answers source steps n = ((TokenStream.ofSource source).calls n).map answerOf := by
  have hstands := TokenStream.standsIn_ofSource source
  rw [answers_eq source hsteps n]
  refine ⟨?_, ?_, ?_, ?_, rfl⟩
  · intro halt hhalt
    obtain ⟨answer, -, hanswer⟩ := List.mem_map.mp hhalt
    cases answer with
    | error e => exact ⟨e, (Except.error.inj hanswer).symm⟩
    | ok token? => cases hanswer
  · intro t ht
    obtain ⟨answer, hmem, hanswer⟩ := List.mem_map.mp ht
    cases answer with
    | error e => cases hanswer
    | ok token? =>
      cases token? with
      | none => cases hanswer
      | some token =>
        cases hanswer
        obtain ⟨-, hlt, hslice⟩ := hstands.of_mem_calls hmem
        obtain ⟨before, after, hsource, hstart, hstop⟩ := hslice
        have hplace : IsPlace source.toList token.start := ⟨before, _, hsource, hstart⟩
        have hplace' : IsPlace source.toList token.stop := by
          refine ⟨before ++ token.text, after, by rw [hsource, List.append_assoc], ?_⟩
          rw [byteLength_append, hstart, hstop]
        refine ⟨hlt, ?_, hplace, hplace', token.text, before, after, hsource, hstart, hstop⟩
        rw [← byteLength_toList]
        exact hplace'.le_byteLength
  · rw [extentsOf_map_answerOf, List.pairwise_map]
    exact hstands.pairwise_calls n
  · intro i j hi hij hj
    rw [List.getElem?_map, Option.map_eq_some_iff] at hi ⊢
    obtain ⟨answer, hanswer, hnone⟩ := hi
    have hend : answer = .ok none := by
      cases answer with
      | error e => cases hnone
      | ok token? =>
        cases token? with
        | none => rfl
        | some t => cases hnone
    rw [hend] at hanswer
    exact ⟨_, TokenStream.calls_eq_none_of_le hanswer hij hj, rfl⟩

/-- Behind a name of two bytes a template nests another one, and ends with the script in a
backslash: the reader passes the end by one byte, and then finds no token any more. -/
theorem answers_stay_in_script_of_last_backslash :
    ∃ source steps, source = "ß \x60$\x7b\x60é\x60\x7d\\" ∧ source.utf8ByteSize + 4 ≤ steps ∧
      answers source steps 3 = [.ok (some ⟨.ident, 0, 2⟩),
        .error (.fault ⟨.unterminatedTemplate, 3⟩), .ok none] ∧
      (∀ halt, .error halt ∈ answers source steps 3 → ∃ e, halt = .fault e) ∧
      (extentsOf (answers source steps 3)).Pairwise (fun t u => t.stop ≤ u.start) := by
  have hsteps : ("ß \x60$\x7b\x60é\x60\x7d\\" : String).utf8ByteSize + 4 ≤ 17 := by decide
  obtain ⟨hhalt, -, hpairwise, -⟩ := answers_stay_in_script _ hsteps 3
  exact ⟨_, 17, rfl, hsteps, by decide +kernel, hhalt, hpairwise⟩

end ByteReader

end Reclass.Script
