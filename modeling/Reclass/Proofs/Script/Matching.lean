import Reclass.Proofs.Script.Group
import Reclass.Proofs.Segment

/-!
# Matching delimiters

From a token that opens a group, the token that closes it is found by following the groups between
the two. It is the one token between which and the opening one everything is balanced. Where there
is none, the first closing delimiter that does not fit is reported, or else the innermost group that
was never closed.
-/

namespace Reclass

namespace Script

/-- That the token at an index opens a group and the token at another index closes it: the two are
delimiters of one pair, and what stands between them is balanced. -/
structure Matches (tokens : List Token) (index close : Nat) : Prop where
  lt : index < close
  inside : Balanced (tokens.extract (index + 1) close)
  pair : ∃ opener closer b, tokens[index]? = some opener ∧ tokens[close]? = some closer ∧
    opener.opens? = some b ∧ closer.closes? = some b

/-- That behind some tokens, of which the first opens a group, these groups are still open, the
innermost first, and every other group has been closed by the delimiter of its own pair. Each group
is given by its pair and the place where it opened. -/
inductive LeavesOpen : List (Bracket × Nat) → List Token → Prop
  | outermost {t : Token} {b : Bracket} {inside : List Token} (hopens : t.opens? = some b)
      (hinside : Balanced inside) : LeavesOpen [(b, t.start)] (t :: inside)
  | inner {pending : List (Bracket × Nat)} {read : List Token} {t : Token} {b : Bracket}
      {inside : List Token} (hread : LeavesOpen pending read) (hopens : t.opens? = some b)
      (hinside : Balanced inside) : LeavesOpen ((b, t.start) :: pending) (read ++ t :: inside)

/-- That the group which the first of some tokens opens is not closed by them, and what is reported
then. -/
inductive StaysOpen : List Token → SyntaxError → Prop
  /-- The first closing delimiter that does not fit the innermost open group. -/
  | mismatched {innermost : Bracket × Nat} {pending : List (Bracket × Nat)} {read rest : List Token}
      {closer : Token} {b : Bracket} (hread : LeavesOpen (innermost :: pending) read)
      (hcloses : closer.closes? = some b) (hpair : innermost.1 ≠ b) :
      StaysOpen (read ++ closer :: rest) ⟨.mismatched innermost.1 b, closer.start⟩
  /-- The tokens run out. -/
  | unclosed {innermost : Bracket × Nat} {pending : List (Bracket × Nat)} {tokens : List Token}
      (hread : LeavesOpen (innermost :: pending) tokens) :
      StaysOpen tokens ⟨.unclosed, innermost.2⟩

/-- That the token at an index has no match, and what is reported then. `size` is the length of the
source. -/
inductive HasNoMatch (size : Nat) (tokens : List Token) (index : Nat) : SyntaxError → Prop
  | missing (h : tokens[index]? = none) : HasNoMatch size tokens index ⟨.notAnOpener, size⟩
  | noOpener {t : Token} (h : tokens[index]? = some t) (hopens : t.opens? = none) :
      HasNoMatch size tokens index ⟨.notAnOpener, t.start⟩
  | staysOpen {e : SyntaxError} (h : StaysOpen (tokens.drop index) e) :
      HasNoMatch size tokens index e

/-! ### The groups that are open -/

namespace LeavesOpen

variable {pending : List (Bracket × Nat)} {read : List Token} {t : Token}

/-- Balanced tokens leave the same groups open. -/
theorem balanced {tokens : List Token} (h : LeavesOpen pending read) (htokens : Balanced tokens) :
    LeavesOpen pending (read ++ tokens) := by
  cases h with
  | outermost hopens hinside => exact .outermost hopens (hinside.append htokens)
  | inner hread hopens hinside =>
    rw [List.append_assoc]
    exact .inner hread hopens (hinside.append htokens)

/-- A token that is no delimiter leaves the same groups open. -/
theorem plain (h : LeavesOpen pending read) (hopens : t.opens? = none)
    (hcloses : t.closes? = none) : LeavesOpen pending (read ++ [t]) :=
  h.balanced (.plain hopens hcloses .nil)

/-- A closing delimiter that fits closes the innermost group. -/
theorem closed {innermost outer : Bracket × Nat}
    (h : LeavesOpen (innermost :: outer :: pending) read) (hcloses : t.closes? = some innermost.1) :
    LeavesOpen (outer :: pending) (read ++ [t]) := by
  cases h with
  | inner hread hopens hinside =>
    rw [List.append_assoc]
    exact hread.balanced (.group hopens hcloses hinside .nil)

end LeavesOpen

/-- A group that is not closed is reported as `StaysOpen` says. `read` is what has been followed. -/
private theorem staysOpen_of_closeInside {opener : Bracket × Nat} {pending : List (Bracket × Nat)}
    {read tokens : List Token} {e : SyntaxError} (h : closeInside opener pending tokens = .error e)
    (hread : LeavesOpen (pending ++ [opener]) read) : StaysOpen (read ++ tokens) e := by
  fun_induction closeInside opener pending tokens generalizing read with
  | case1 pending =>
    cases h
    rw [List.append_nil]
    cases pending with
    | nil => exact .unclosed hread
    | cons inner pending => exact .unclosed hread
  | case2 pending t rest b hopens ih =>
    have htail := ih (Except.map_eq_error_iff.mp h) (.inner hread hopens .nil)
    rwa [List.append_assoc] at htail
  | case3 t rest hopens pending hcloses ih =>
    have htail := ih (Except.map_eq_error_iff.mp h) (hread.plain hopens hcloses)
    rwa [List.append_assoc] at htail
  | case4 => exact absurd h (by simp)
  | case5 t rest hopens b hcloses hpair =>
    cases h
    exact .mismatched hread hcloses hpair
  | case6 t rest hopens inner pending hcloses ih =>
    have hclosed : LeavesOpen (pending ++ [opener]) (read ++ [t]) := by
      cases pending with
      | nil => exact hread.closed hcloses
      | cons outer pending => exact hread.closed hcloses
    have htail := ih (Except.map_eq_error_iff.mp h) hclosed
    rwa [List.append_assoc] at htail
  | case7 t rest hopens b inner pending hcloses hpair =>
    cases h
    exact .mismatched hread hcloses hpair

/-- Tokens behind which a group is open are followed up to there. -/
private theorem exists_closeInside_of_leavesOpen {open' : List (Bracket × Nat)} {read : List Token}
    (h : LeavesOpen open' read) :
    ∃ t b tail pending, read = t :: tail ∧ t.opens? = some b ∧
      open' = pending ++ [(b, t.start)] ∧
      ∀ rest, closeInside (b, t.start) [] (tail ++ rest) =
        (closeInside (b, t.start) pending rest).map fun group =>
          { group with inside := tail ++ group.inside } := by
  induction h with
  | @outermost t b inside hopens hinside =>
    exact ⟨t, b, inside, [], rfl, hopens, rfl, closeInside_balanced hinside []⟩
  | @inner _ _ u c inside _ hopens hinside ih =>
    obtain ⟨t, b, tail, pending, rfl, hfirst, rfl, hfollow⟩ := ih
    refine ⟨t, b, tail ++ u :: inside, (c, u.start) :: pending, rfl, hfirst, rfl, fun rest => ?_⟩
    rw [List.append_assoc, hfollow]
    simp only [List.cons_append, closeInside, hopens, closeInside_balanced hinside]
    cases closeInside (b, t.start) ((c, u.start) :: pending) rest <;>
      simp [Except.map, Closed.cons]

/-- A group that stays open is reported so. -/
private theorem closeGroup_of_staysOpen {tokens : List Token} {e : SyntaxError}
    (h : StaysOpen tokens e) :
    ∃ t rest, tokens = t :: rest ∧ closeGroup t rest = .error e := by
  cases h with
  | @mismatched innermost _ read rest closer b' hread hcloses hpair =>
    obtain ⟨t, b, tail, pending, rfl, hopens, hpending, hfollow⟩ :=
      exists_closeInside_of_leavesOpen hread
    have herror : closeInside (b, t.start) pending (closer :: rest) =
        .error ⟨.mismatched innermost.1 b', closer.start⟩ := by
      cases pending <;> obtain ⟨rfl, _⟩ := List.cons.inj hpending <;>
        simp [closeInside, opens?_eq_none_of_closes? hcloses, hcloses, hpair]
    refine ⟨t, tail ++ closer :: rest, rfl, ?_⟩
    simp only [closeGroup, hopens, hfollow, herror, Except.map]
  | @unclosed innermost _ _ hread =>
    obtain ⟨t, b, tail, pending, rfl, hopens, hpending, hfollow⟩ :=
      exists_closeInside_of_leavesOpen hread
    have herror : closeInside (b, t.start) pending [] = .error ⟨.unclosed, innermost.2⟩ := by
      cases pending <;> obtain ⟨rfl, _⟩ := List.cons.inj hpending <;> rfl
    have hend := hfollow []
    rw [List.append_nil, herror] at hend
    refine ⟨t, tail, rfl, ?_⟩
    simp only [closeGroup, hopens, hend, Except.map]

/-! ### The index of the match -/

/-- A match is found, and nothing else is. -/
theorem matchingIndex_eq_ok_iff {size : Nat} {tokens : List Token} {index close : Nat} :
    matchingIndex size tokens index = .ok close ↔ Matches tokens index close := by
  rw [matchingIndex]
  constructor
  · intro h
    split at h
    · exact absurd h (by simp)
    · next t rest htokens =>
      obtain ⟨group, hgroup, rfl⟩ := Except.map_eq_ok_iff.mp h
      obtain ⟨hrest, hinside, b, hopens, hcloses⟩ := closeGroup_eq_ok_iff.mp hgroup
      have hbehind := List.drop_succ_of_drop_eq_cons htokens
      rw [hrest] at hbehind
      have hextract := List.extract_of_drop_eq_append hbehind
      have hcloser := congrArg (List.drop group.inside.length) hbehind
      rw [List.drop_drop, List.drop_left] at hcloser
      rw [Nat.add_right_comm] at hextract hcloser
      exact {
        lt := by omega
        inside := by rwa [hextract]
        pair := ⟨t, group.closer, b, List.getElem?_of_drop_eq_cons htokens,
          List.getElem?_of_drop_eq_cons hcloser, hopens, hcloses⟩ }
  · rintro ⟨hlt, hinside, opener, closer, b, hopener, hcloser, hopens, hcloses⟩
    have hbehind := List.extract_append_drop (l := tokens) (Nat.succ_le_of_lt hlt)
    rw [List.drop_eq_cons hcloser] at hbehind
    have hgroup : closeGroup opener (tokens.drop (index + 1)) =
        .ok ⟨tokens.extract (index + 1) close, closer, tokens.drop (close + 1)⟩ :=
      closeGroup_eq_ok_iff.mpr ⟨hbehind.symm, hinside, b, hopens, hcloses⟩
    rw [List.drop_eq_cons hopener]
    simp only [hgroup, Except.map]
    have hclose : close < tokens.length := (List.getElem?_eq_some_iff.mp hcloser).1
    rw [List.extract_eq_take_drop, List.length_take, List.length_drop]
    congr 1
    omega

/-- Where there is no match, this is reported, and nothing else is. -/
theorem matchingIndex_eq_error_iff {size : Nat} {tokens : List Token} {index : Nat}
    {e : SyntaxError} :
    matchingIndex size tokens index = .error e ↔ HasNoMatch size tokens index e := by
  rw [matchingIndex]
  constructor
  · intro h
    split at h
    · next htokens =>
      cases h
      exact .missing (List.getElem?_eq_none (List.drop_eq_nil_iff.mp htokens))
    · next t rest htokens =>
      have hgroup := Except.map_eq_error_iff.mp h
      rw [closeGroup] at hgroup
      split at hgroup
      · next hopens =>
        cases hgroup
        exact .noOpener (List.getElem?_of_drop_eq_cons htokens) hopens
      · next b hopens =>
        refine .staysOpen ?_
        rw [htokens]
        exact staysOpen_of_closeInside hgroup (.outermost hopens .nil)
  · intro h
    cases h with
    | missing h => rw [List.drop_eq_nil_of_le (List.getElem?_eq_none_iff.mp h)]
    | noOpener h hopens =>
      rw [List.drop_eq_cons h]
      simp only [closeGroup, hopens, Except.map]
    | staysOpen h =>
      obtain ⟨t, rest, htokens, hgroup⟩ := closeGroup_of_staysOpen h
      rw [htokens]
      simp only [hgroup, Except.map]

/-! ### A stack of open groups -/

/-- How a loop that keeps all open groups on a stack can end. -/
inductive LoopEnd where
  | closed (index : Nat)
  | failed (e : SyntaxError)
  /-- A closing delimiter is met while no group is open. -/
  | unexpected (closer : Token)

/-- The end of the loop that has an outcome. -/
def LoopEnd.ofOutcome : Except SyntaxError Nat → LoopEnd
  | .ok index => .closed index
  | .error e => .failed e

/-- Goes on with the tokens from `index` on, while the groups on the stack are open. -/
def followOnStack : List (Bracket × Nat) → Nat → List Token → LoopEnd
  | stack, _, [] => .failed ⟨.unclosed, (stack.head?.map Prod.snd).getD 0⟩
  | stack, index, t :: rest =>
    match t.opens?, t.closes?, stack with
    | some b, _, stack => followOnStack ((b, t.start) :: stack) (index + 1) rest
    | none, none, stack => followOnStack stack (index + 1) rest
    | none, some _, [] => .unexpected t
    | none, some b, innermost :: stack =>
      if innermost.1 ≠ b then .failed ⟨.mismatched innermost.1 b, t.start⟩
      else if stack = [] then .closed index
      else followOnStack stack (index + 1) rest

/-- The match of the token at an index, by a loop that starts with an empty stack. -/
def matchOnStack (size : Nat) (tokens : List Token) (index : Nat) : LoopEnd :=
  match tokens.drop index with
  | [] => .failed ⟨.notAnOpener, size⟩
  | t :: rest =>
    if t.opens? = none then .failed ⟨.notAnOpener, t.start⟩
    else followOnStack [] index (t :: rest)

/-- The stack of the loop is never empty behind the first token: under the groups inside of it, the
group that is to be closed stays on it until the loop ends. -/
private theorem followOnStack_eq (opener : Bracket × Nat) (pending : List (Bracket × Nat))
    (index : Nat) (tokens : List Token) :
    followOnStack (pending ++ [opener]) index tokens =
      .ofOutcome ((closeInside opener pending tokens).map fun group =>
        index + group.inside.length) := by
  have hcons (t : Token) (index : Nat) (group : Except SyntaxError Closed) :
      (group.map (Closed.cons t)).map (fun group => index + group.inside.length) =
        group.map fun group => index + 1 + group.inside.length := by
    cases group with
    | error e => rfl
    | ok group =>
      simp only [Except.map, Closed.cons, List.length_cons]
      rw [Nat.add_comm group.inside.length, ← Nat.add_assoc]
  fun_induction closeInside opener pending tokens generalizing index with
  | case1 pending => cases pending <;> rfl
  | case2 pending t rest b hopens ih =>
    rw [hcons, ← ih]
    simp only [followOnStack, hopens, List.cons_append]
  | case3 t rest hopens pending hcloses ih =>
    rw [hcons, ← ih]
    simp only [followOnStack, hopens, hcloses]
  | case4 t rest hopens hcloses =>
    simp [followOnStack, hopens, hcloses, Except.map, LoopEnd.ofOutcome]
  | case5 t rest hopens b hcloses hpair =>
    simp [followOnStack, hopens, hcloses, hpair, Except.map, LoopEnd.ofOutcome]
  | case6 t rest hopens inner pending hcloses ih =>
    rw [hcons, ← ih]
    simp [followOnStack, hopens, hcloses]
  | case7 t rest hopens b inner pending hcloses hpair =>
    simp [followOnStack, hopens, hcloses, hpair, Except.map, LoopEnd.ofOutcome]

/-- The loop with a stack has the outcome of following the groups from the opening delimiter on. -/
theorem matchOnStack_eq (size : Nat) (tokens : List Token) (index : Nat) :
    matchOnStack size tokens index = .ofOutcome (matchingIndex size tokens index) := by
  rw [matchOnStack, matchingIndex]
  cases tokens.drop index with
  | nil => rfl
  | cons t rest =>
    cases hopens : t.opens? with
    | none => simp [closeGroup, hopens, Except.map, LoopEnd.ofOutcome]
    | some b =>
      have hloop := followOnStack_eq (b, t.start) [] (index + 1) rest
      rw [List.nil_append] at hloop
      simp only [followOnStack, hopens, closeGroup, hloop, reduceCtorEq, if_false]
      cases closeInside (b, t.start) [] rest <;>
        simp [Except.map, Nat.add_right_comm]

/-- The match of a delimiter is found exactly: it is the one index at which the group that opens is
closed, with everything in between balanced; where there is none, the fault is reported that
`HasNoMatch` describes. A loop that keeps all open groups on a stack gives the same answer, and
never meets a closing delimiter while its stack is empty. -/
theorem matchingIndex_exact (size : Nat) (tokens : List Token) (index : Nat) :
    (∀ close, matchingIndex size tokens index = .ok close ↔ Matches tokens index close) ∧
    (∀ close close', Matches tokens index close → Matches tokens index close' → close = close') ∧
    (∀ e, matchingIndex size tokens index = .error e ↔ HasNoMatch size tokens index e) ∧
    matchOnStack size tokens index = .ofOutcome (matchingIndex size tokens index) ∧
    (∀ closer, matchOnStack size tokens index ≠ .unexpected closer) ∧
    Fault.notAnOpener.message = "expected an opening delimiter" ∧
    Fault.unclosed.message = "unclosed delimiter" := by
  refine ⟨fun _ => matchingIndex_eq_ok_iff, fun close close' h h' => ?_,
    fun _ => matchingIndex_eq_error_iff, matchOnStack_eq size tokens index, fun closer => ?_, rfl,
    rfl⟩
  · have hfound : matchingIndex size tokens index = .ok close := matchingIndex_eq_ok_iff.mpr h
    rw [matchingIndex_eq_ok_iff.mpr h'] at hfound
    exact (Except.ok.inj hfound).symm
  · rw [matchOnStack_eq]
    cases matchingIndex size tokens index <;> simp [LoopEnd.ofOutcome]

end Script

end Reclass
