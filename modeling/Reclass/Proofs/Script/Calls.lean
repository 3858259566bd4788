import Reclass.Proofs.Script.Failures
import Reclass.Proofs.Script.Tiling
import Reclass.Proofs.Text.Places

/-!
# Calls of a stream

A stream can be asked for a token again and again, also behind an error. Whatever comes of a call,
the stream then stands in its script and not further back, a token is a piece of the script in
front of the stream, and a fault is at a place of the script.
-/

namespace Reclass.Script

open Text

namespace TokenStream

/-- That a stream stands in a script: what is left to it is what the script has from its offset
on. -/
def StandsIn (stream : TokenStream) (source : String) : Prop :=
  ∃ before, source.toList = before ++ stream.rest ∧ stream.offset = byteLength before

/-- All that can come of a call. Behind a gap there is nothing, or a token and what is left then, or
a fault, which is found somewhere in what was left, as is the text from which reading goes on. -/
inductive Call (stream : TokenStream) :
    Except SyntaxError (Option Token) × TokenStream → Prop
  | ended (hgap : (gap stream.rest).2 = []) :
      Call stream (.ok none, ⟨stream.offset + byteLength stream.rest, [], stream.slash⟩)
  | token {t : Token} {rest : List Char} (hrest : stream.rest = t.gap ++ (t.text ++ rest))
      (hne : t.text ≠ []) (hstart : t.start = stream.offset + byteLength t.gap) :
      Call stream (.ok (some t), ⟨t.stop, rest, t.lexeme.slash⟩)
  | fault {fault : Fault} {before site before' rest : List Char} {slash : Bool}
      (hgap : (gap stream.rest).2 ≠ []) (hsite : stream.rest = before ++ site)
      (hrest : stream.rest = before' ++ rest) :
      Call stream (.error ⟨fault, stream.offset + byteLength before⟩,
        ⟨stream.offset + byteLength before', rest, slash⟩)

/-- What comes of the next call. -/
theorem call_next (stream : TokenStream) : stream.Call stream.next := by
  have happend := gap_append stream.rest
  unfold next
  cases hgap : (gap stream.rest).2 with
  | nil =>
    rw [hgap, List.append_nil] at happend
    rw [happend]
    exact .ended hgap
  | cons c s =>
    have hleaves := leaves_lexeme stream.slash c s
    dsimp only
    cases hread : lexeme stream.slash c s with
    | done token rest hlt =>
      have hlexeme : LexemeRead stream.slash (c :: s) token rest :=
        lexeme?_eq_some_iff.mp (by rw [lexeme?, hread]; rfl)
      obtain ⟨htext, hne⟩ := hlexeme.append
      refine .token ?_ hne rfl
      rw [← htext, ← hgap, happend]
    | failed failure =>
      rw [hread] at hleaves
      obtain ⟨⟨before, hsite⟩, ⟨before', hrest⟩⟩ := hleaves
      -- what a suffix lacks of the text is what stands before it
      have hoffset {before suffix : List Char} (h : before ++ suffix = c :: s) :
          stream.offset + byteLength (gap stream.rest).1 +
              (byteLength (c :: s) - byteLength suffix) =
            stream.offset + byteLength ((gap stream.rest).1 ++ before) := by
        rw [← h, byteLength_append, byteLength_append]
        omega
      have hsplit {before suffix : List Char} (h : before ++ suffix = c :: s) :
          stream.rest = (gap stream.rest).1 ++ before ++ suffix := by
        rw [List.append_assoc, h, ← hgap, happend]
      simp only [hoffset hsite, hoffset hrest]
      exact .fault (by simp [hgap]) (hsplit hsite) (hsplit hrest)

variable {stream after : TokenStream} {source : String}

/-- The stream of a script stands at its start. -/
theorem standsIn_ofSource (source : String) : (ofSource source).StandsIn source :=
  ⟨(lead source.toList).1, (lead_append source.toList).symm, rfl⟩

/-- A call leaves a stream in its script, and not further back. -/
theorem StandsIn.next (h : stream.StandsIn source) :
    stream.next.2.StandsIn source ∧ stream.offset ≤ stream.next.2.offset := by
  obtain ⟨before, hsource, hoffset⟩ := h
  have hmoved {skipped rest : List Char} (slash : Bool) (hrest : stream.rest = skipped ++ rest) :
      StandsIn ⟨stream.offset + byteLength skipped, rest, slash⟩ source := by
    refine ⟨before ++ skipped, ?_, ?_⟩
    · rw [hsource, hrest, List.append_assoc]
    · rw [byteLength_append, hoffset]
  have hcall := stream.call_next
  generalize stream.next = outcome at hcall ⊢
  cases hcall with
  | ended => exact ⟨hmoved _ (List.append_nil _).symm, Nat.le_add_right _ _⟩
  | @token t rest hrest _ hstart =>
    have hstop : t.stop = stream.offset + byteLength (t.gap ++ t.text) := by
      rw [Token.stop, hstart, byteLength_append, Nat.add_assoc]
    rw [hstop]
    exact ⟨hmoved _ (by rw [hrest, List.append_assoc]), Nat.le_add_right _ _⟩
  | fault _ _ hrest => exact ⟨hmoved _ hrest, Nat.le_add_right _ _⟩

/-- A token is a piece of the script at its place, between the places of the stream before the call
and behind it. -/
theorem StandsIn.token (h : stream.StandsIn source) {t : Token}
    (ht : stream.next.1 = .ok (some t)) :
    stream.offset ≤ t.start ∧ t.start < t.stop ∧ t.stop = stream.next.2.offset ∧
      IsSlice source t.start t.stop t.text := by
  obtain ⟨before, hsource, hoffset⟩ := h
  have hcall := stream.call_next
  generalize stream.next = outcome at hcall ht
  cases hcall with
  | ended => cases ht
  | fault => cases ht
  | @token t rest hrest hne hstart =>
    cases ht
    have hpos := byteLength_pos hne
    refine ⟨by omega, by rw [Token.stop]; omega, rfl, before ++ t.gap, rest, ?_, ?_, rfl⟩
    · rw [hsource, hrest, List.append_assoc]
    · rw [byteLength_append, hstart, hoffset]

/-- A fault is found at a place of the script. -/
theorem StandsIn.isPlace (h : stream.StandsIn source) {e : SyntaxError}
    (he : stream.next.1 = .error e) : IsPlace source.toList e.offset := by
  obtain ⟨before, hsource, hoffset⟩ := h
  have hcall := stream.call_next
  generalize stream.next = outcome at hcall he
  cases hcall with
  | ended => cases he
  | token => cases he
  | @fault fault skipped site _ _ _ _ hsite =>
    cases he
    refine ⟨before ++ skipped, site, ?_, ?_⟩
    · rw [hsource, hsite, List.append_assoc]
    · rw [byteLength_append, hoffset]

/-- At the end of its text a stream has no more tokens, and stays there. -/
theorem next_of_rest_eq_nil (h : stream.rest = []) :
    stream.next.1 = .ok none ∧ stream.next.2.rest = [] := by
  have hgap : (gap stream.rest).2 = [] := by
    rw [h]
    exact congrArg Prod.snd (gap_of_separator?_eq_none rfl)
  have hcall := stream.call_next
  generalize stream.next = outcome at hcall ⊢
  cases hcall with
  | ended => exact ⟨rfl, rfl⟩
  | token hrest hne => simp [h, hne] at hrest
  | fault hne => exact absurd hgap hne

/-- A stream that has no more tokens is at the end of its text. -/
theorem rest_eq_nil_of_next (h : stream.next.1 = .ok none) : stream.next.2.rest = [] := by
  have hcall := stream.call_next
  generalize stream.next = outcome at hcall h ⊢
  cases hcall with
  | ended => rfl
  | token => cases h
  | fault => cases h

/-- Where reading all tokens fails, it does so at a place of the script. -/
theorem StandsIn.isPlace_of_tokens (h : stream.StandsIn source) {e : SyntaxError}
    (he : stream.tokens = .error e) : IsPlace source.toList e.offset := by
  fun_induction TokenStream.tokens stream with
  | case1 stream e' after hnext =>
    cases he
    exact h.isPlace (congrArg Prod.fst hnext)
  | case2 => cases he
  | case3 stream t after hnext ih =>
    rw [Except.map_eq_error_iff] at he
    have hafter := h.next.1
    rw [hnext] at hafter
    exact ih hafter he

/-! ### Many calls -/

/-- What comes of some calls, one after the other, whatever came of those before. -/
def calls : Nat → TokenStream → List (Except SyntaxError (Option Token))
  | 0, _ => []
  | n + 1, stream => stream.next.1 :: calls n stream.next.2

/-- The tokens among the answers to some calls. -/
def tokensOf (answers : List (Except SyntaxError (Option Token))) : List Token :=
  answers.filterMap fun answer => answer.toOption.join

/-- The tokens of some answers are those that one of them gives. -/
theorem mem_tokensOf_iff {answers : List (Except SyntaxError (Option Token))} {t : Token} :
    t ∈ tokensOf answers ↔ .ok (some t) ∈ answers := by
  simp only [tokensOf, List.mem_filterMap, Option.join_eq_some_iff, Except.toOption_eq_some_iff]
  constructor
  · rintro ⟨answer, hanswer, rfl⟩
    exact hanswer
  · intro h
    exact ⟨_, h, rfl⟩

/-- The tokens that some calls give are pieces of the script, behind the place of the stream. -/
theorem StandsIn.of_mem_calls (h : stream.StandsIn source) {n : Nat} {t : Token}
    (ht : .ok (some t) ∈ stream.calls n) :
    stream.offset ≤ t.start ∧ t.start < t.stop ∧ IsSlice source t.start t.stop t.text := by
  induction n generalizing stream with
  | zero => simp [calls] at ht
  | succ n ih =>
    obtain ⟨hnext, hle⟩ := h.next
    rcases List.mem_cons.mp ht with hfirst | hlater
    · obtain ⟨hstart, hlt, -, hslice⟩ := h.token hfirst.symm
      exact ⟨hstart, hlt, hslice⟩
    · obtain ⟨hstart, hlt, hslice⟩ := ih hnext hlater
      exact ⟨by omega, hlt, hslice⟩

/-- The tokens that some calls give stand one behind the other, also where a call failed between
them. -/
theorem StandsIn.pairwise_calls (h : stream.StandsIn source) (n : Nat) :
    (tokensOf (stream.calls n)).Pairwise fun t u => t.stop ≤ u.start := by
  induction n generalizing stream with
  | zero => exact .nil
  | succ n ih =>
    obtain ⟨hnext, -⟩ := h.next
    have htail := ih hnext
    rw [calls]
    cases hfirst : stream.next.1 with
    | error e => exact htail
    | ok token? =>
      cases token? with
      | none => exact htail
      | some t =>
        obtain ⟨-, -, hstop, -⟩ := h.token hfirst
        refine List.Pairwise.cons (fun u hu => ?_) htail
        obtain ⟨hstart, -⟩ := hnext.of_mem_calls (mem_tokensOf_iff.mp hu)
        omega

/-- At the end of its text every call of a stream finds no token. -/
theorem calls_of_rest_eq_nil (h : stream.rest = []) (n : Nat) :
    stream.calls n = List.replicate n (.ok none) := by
  induction n generalizing stream with
  | zero => rfl
  | succ n ih =>
    obtain ⟨hfirst, hrest⟩ := next_of_rest_eq_nil h
    rw [calls, hfirst, ih hrest, List.replicate_succ]

/-- Behind a call that found no token, no call finds one. -/
theorem calls_eq_none_of_le {n i j : Nat} (hi : (stream.calls n)[i]? = some (.ok none))
    (hij : i ≤ j) (hj : j < n) : (stream.calls n)[j]? = some (.ok none) := by
  induction n generalizing stream i j with
  | zero => omega
  | succ n ih =>
    rw [calls] at hi ⊢
    cases i with
    | zero =>
      have hfirst : stream.next.1 = .ok none := by simpa using hi
      rw [calls_of_rest_eq_nil (rest_eq_nil_of_next hfirst), hfirst, ← List.replicate_succ]
      exact List.getElem?_replicate_of_lt hj
    | succ i =>
      obtain ⟨j, rfl⟩ := Nat.exists_eq_add_of_le' (show 1 ≤ j by omega)
      rw [List.getElem?_cons_succ] at hi ⊢
      exact ih hi (by omega) (by omega)

end TokenStream

end Reclass.Script
