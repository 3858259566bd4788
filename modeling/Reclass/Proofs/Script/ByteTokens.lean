import Reclass.Proofs.Script.ByteParts
import Reclass.Proofs.Script.Failures

/-!
# Tokens byte by byte

A token that is read byte by byte ends where the same token ends that is read by characters, with
all templates and substitutions nested in it, and both readers stop at the same fault. Each step of
the reader of bytes goes at least one byte on, so its steps are bounded by the bytes of the script.
-/

namespace Reclass.Script

open Text

namespace ByteReader

variable {source s : List Char} {pos start : Nat} {u : CodeUnit} {c : Char}

/-! ### Where the readers agree -/

/-- That what a reader of bytes has reached is what came of reading the same characters: something
read, of which `done` says where it ends, or the same fault, behind which both go on in the same
way. -/
inductive Mirrors {α β : Type} (source : List Char) (done : α → List Char → β → Prop) :
    Except Failure (α × List Char) → Except (Halt × Head) β → Prop
  | done {value : α} {rest : List Char} {reached : β} (h : done value rest reached) :
      Mirrors source done (.ok (value, rest)) (.ok reached)
  | failed {failure : Failure} {head : Head} (hrest : Reaches source head.pos failure.rest)
      (hslash : failure.rest ≠ [] → regexAllowed source head.last = .ok failure.slash) :
      Mirrors source done (.error failure)
        (.error (.fault ⟨failure.fault, byteLength source - byteLength failure.site⟩, head))

namespace Mirrors

variable {α α' β β' : Type} {done : α → List Char → β → Prop} {done' : α' → List Char → β' → Prop}
  {outcome : Except Failure (α × List Char)} {reached : Except (Halt × Head) β}

/-- Two steps agree when both do. -/
theorem bind {next : α × List Char → Except Failure (α' × List Char)}
    {next' : β → Except (Halt × Head) β'} (h : Mirrors source done outcome reached)
    (hnext : ∀ value rest result, outcome = .ok (value, rest) → done value rest result →
      Mirrors source done' (next (value, rest)) (next' result)) :
    Mirrors source done' (outcome >>= next) (reached >>= next') := by
  cases h with
  | done h => exact hnext _ _ _ rfl h
  | failed hrest hslash => exact .failed hrest hslash

/-- What was read by characters can be changed. -/
theorem map {f : α × List Char → α' × List Char} {done' : α' → List Char → β → Prop}
    (h : Mirrors source done outcome reached)
    (hdone : ∀ value rest result, done value rest result →
      done' (f (value, rest)).1 (f (value, rest)).2 result) :
    Mirrors source done' (outcome.map f) reached := by
  cases h with
  | done h => exact .done (hdone _ _ _ h)
  | failed hrest hslash => exact .failed hrest hslash

/-- What was reached by bytes can be changed. -/
theorem map_reached {next : β → Except (Halt × Head) β'} {done' : α → List Char → β' → Prop}
    (h : Mirrors source done outcome reached)
    (hdone : ∀ value rest result, outcome = .ok (value, rest) → done value rest result →
      ∃ result', next result = .ok result' ∧ done' value rest result') :
    Mirrors source done' outcome (reached >>= next) := by
  cases h with
  | @done value rest result h =>
    obtain ⟨result', hnext, hdone'⟩ := hdone value rest result rfl h
    change Mirrors source done' _ (next result)
    rw [hnext]
    exact .done hdone'
  | failed hrest hslash => exact .failed hrest hslash

end Mirrors

/-- That a text was read from an offset on, and the rest of the script stands behind it. -/
def Passes (source : List Char) (pos : Nat) (text rest : List Char) (head : Head) : Prop :=
  head.pos = pos + byteLength text ∧ TailAt source head.pos rest

/-- What was read behind a text has been read from where the text starts, together with it. -/
theorem Passes.after {text rest : List Char} {head : Head} (before : List Char)
    (h : Passes source (pos + byteLength before) text rest head) :
    Passes source pos (before ++ text) rest head := by
  obtain ⟨hpos, hrest⟩ := h
  exact ⟨by rw [hpos, byteLength_append, Nat.add_assoc], hrest⟩

/-- That a token was read from an offset on, and the rest of the script stands behind it. -/
def Ended (source : List Char) (start : Nat) (token : Lexeme) (rest : List Char)
    (reached : TokenKind × Nat) : Prop :=
  reached = (token.kind, start + byteLength token.text) ∧ TailAt source reached.2 rest

/-! ### Tokens that nest nothing -/

/-- The byte at an offset is the first one of the text from there on. -/
theorem unitAt_eq_map (h : TailAt source pos s) : unitAt source pos = s.head?.map .ofChar := by
  cases s with
  | nil => exact h.unitAt_nil
  | cons c s => exact h.unitAt_cons

variable {last : Option Extent} {slash : Bool}

/-- What is read at the start of a text by bytes, when it is no literal in quotes. -/
private theorem plainEnd_eq (h : TailAt source start (c :: s)) (hquote : ¬(c = '"' ∨ c = '\''))
    (hallowed : regexAllowed source last = .ok slash) :
    plainEnd source last start (.ofChar c) =
      if c = '/' ∧ slash then (regexEnd source start false (start + 1)).map (.regex, ·)
      else if c.isDigit ∨ (c = '.' ∧ s.head?.any Char.isDigit) then
        (numberEnd source (c == '0' && (s.head? == some 'x' || s.head? == some 'X')) start).map
          (.number, ·)
      else if isNameStart c then (nameEnd source start).map (.ident, ·)
      else (punctuationEnd source start).map (.punct, ·) := by
  have hpoint : (c = '.' ∧ (unitAt source (start + 1)).any isDigitUnit) ↔
      (c = '.' ∧ s.head?.any Char.isDigit) := by
    refine and_congr_right ?_
    rintro rfl
    have htail : TailAt source (start + 1) s := h.cons
    rw [unitAt_eq_map htail]
    cases s with
    | nil => rfl
    | cons d s => simp [isDigitUnit_ofChar]
  have hregex : isRegexAt source last start (.ofChar c) = .ok (c == '/' && slash) := by
    rw [isRegexAt]
    simp (disch := decide) only [ofChar_eq_ascii_iff, hallowed]
    split
    · next hslash =>
      subst hslash
      rfl
    · next hslash => simp [hslash]
  unfold plainEnd
  simp (disch := decide) only [ofChar_eq_ascii_iff, isDigitUnit_ofChar, isNameStartUnit_ofChar,
    hpoint, hregex, isHexAt_eq h]
  rw [if_neg fun h => hquote (.inl h), if_neg fun h => hquote (.inr h)]
  simp only [bind, Except.bind, Bool.and_eq_true, beq_iff_eq]

/-- A literal that is read up to its end by bytes and by characters. -/
private theorem mirrors_of_ends {fault : Fault} {kind : TokenKind}
    {outcome : Except (List Char) (List Char × List Char)} {reached : Except (Halt × Nat) Nat}
    (hc : c.toNat < 0x80) (h : TailAt source start (c :: s))
    (hallowed : regexAllowed source last = .ok slash) :
    Ends source (start + 1) ⟨fault, start⟩ outcome reached →
    Mirrors source (Ended source start)
      (match outcome with
        | .ok (text, rest) => .ok (⟨kind, c :: text⟩, rest)
        | .error rest => .error ⟨fault, c :: s, rest, slash⟩)
      (move last (reached.map (kind, ·))) := by
  have hsize := utf8Size_eq_one hc
  intro hends
  cases hends with
  | @closed text rest hrest =>
    have hstop : start + 1 + byteLength text = start + byteLength (c :: text) := by
      rw [byteLength, hsize, Nat.add_assoc]
    rw [hstop] at hrest ⊢
    exact .done ⟨rfl, hrest⟩
  | @stopped rest after hrest =>
    have hsite : start = byteLength source - byteLength (c :: s) := by
      have hend := h.add_byteLength
      omega
    have hfailed : Mirrors source (Ended source start)
        (.error ⟨fault, c :: s, rest, slash⟩ : Except Failure (Lexeme × List Char))
        (.error (.fault ⟨fault, byteLength source - byteLength (c :: s)⟩, ⟨after, last⟩)) :=
      .failed hrest fun _ => hallowed
    rwa [← hsite] at hfailed

/-- A token that is no template is read by bytes as by characters. -/
private theorem plainEnd_mirrors (h : TailAt source start (c :: s))
    (hsep : separator? (c :: s) = none) (htemplate : c ≠ '\x60')
    (hcomment : ¬(c = '/' ∧ s.head? = some '*'))
    (hallowed : regexAllowed source last = .ok slash) :
    Mirrors source (Ended source start) (lexeme slash c s).outcome
      (move last (plainEnd source last start (.ofChar c))) := by
  rw [lexeme_outcome]
  split_ifs with hquote hslash hnumber hname
  · rcases hquote with rfl | rfl
    · exact mirrors_of_ends (by decide) h hallowed (stringEnd_ends (by decide) h.cons)
    · exact mirrors_of_ends (by decide) h hallowed (stringEnd_ends (by decide) h.cons)
  · rw [plainEnd_eq h hquote hallowed, if_pos hslash]
    obtain ⟨rfl, rfl⟩ := hslash
    exact mirrors_of_ends (by decide) h hallowed (regexEnd_ends h.cons)
  · have hend : TailAt source (start + byteLength (number c s).1) (number c s).2 := by
      refine TailAt.append ?_
      rwa [number_append]
    have hstart : c.isDigit ∨ c = '.' := hnumber.imp_right And.left
    rw [plainEnd_eq h hquote hallowed, if_neg hslash, if_pos hnumber, numberEnd_eq hstart h]
    exact .done ⟨rfl, hend⟩
  · have hcontinues : continuesName c = true := by
      have hspace := not_isSpace_of_separator?_eq_none hsep
      unfold continuesName
      split
      · simp [isNamePart, hname]
      · simp [hspace]
    have hend : TailAt source (start + byteLength (c :: s.takeWhile continuesName))
        (s.dropWhile continuesName) := by
      refine TailAt.append (t := c :: s.takeWhile continuesName) ?_
      rwa [List.cons_append, List.takeWhile_append_dropWhile]
    rw [plainEnd_eq h hquote hallowed, if_neg hslash, if_neg hnumber, if_pos hname, nameEnd_eq h,
      List.takeWhile_cons_of_pos hcontinues]
    exact .done ⟨rfl, hend⟩
  · have hc : c.toNat < 0x80 := by
      simp only [isNameStart, Bool.or_eq_true, decide_eq_true_eq, not_or] at hname
      omega
    have hend : TailAt source (start + byteLength (punctuation c s).1) (punctuation c s).2 := by
      refine TailAt.append ?_
      rwa [punctuation_append]
    rw [plainEnd_eq h hquote hallowed, if_neg hslash, if_neg hnumber, if_neg hname,
      punctuationEnd_eq hc h]
    exact .done ⟨rfl, hend⟩

/-! ### Templates -/

/-- That substitutions of texts with fewer than `n` characters are read by bytes as by
characters. -/
private def MirrorsSubstitutions (source : List Char) (n : Nat) : Prop :=
  ∀ {s site : List Char} {pos start : Nat} (depth : Nat) {slash : Bool} {steps : Nat}
    {last : Option Extent}, s.length < n → TailAt source pos s → 0 < pos →
    start = byteLength source - byteLength site → regexAllowed source last = .ok slash →
    byteLength source + 5 ≤ steps + pos →
    Mirrors source (Passes source pos) (substitution site depth slash s).outcome
      (substitutionEnd source steps start depth ⟨pos, last⟩)

/-- On the way over the bytes of a character each step goes one byte on. -/
private theorem templateEnd_over {steps : Nat} (h : TailAt source pos (c :: s))
    (hsteps : byteLength source + 4 ≤ steps + (pos + 1)) :
    templateEnd source steps start ⟨pos + 1, last⟩ =
      templateEnd source (steps + (pos + 1) - (pos + c.utf8Size)) start
        ⟨pos + c.utf8Size, last⟩ := by
  have hpass (p : Nat) (hp : unitAt source p = some .part) :
      templateEnd source (steps + (pos + 1) - p) start ⟨p, last⟩ =
        templateEnd source (steps + (pos + 1) - (p + 1)) start ⟨p + 1, last⟩ := by
    have hlt := lt_byteLength_of_unitAt hp
    obtain ⟨m, hm⟩ := Nat.exists_eq_add_of_le' (show 1 ≤ steps + (pos + 1) - p by omega)
    rw [hm, show steps + (pos + 1) - (p + 1) = m by omega, templateEnd]
    simp only [hp]
    rw [if_neg (by simp), if_neg (by simp), if_neg (by simp)]
  have hover := h.pass hpass
  rwa [Nat.add_sub_cancel] at hover

private theorem templateEnd_mirrors {n steps : Nat} {site : List Char}
    (hsubstitution : MirrorsSubstitutions source n) (hlength : s.length ≤ n)
    (h : TailAt source pos s) (hsite : start = byteLength source - byteLength site)
    (hsteps : byteLength source + 4 ≤ steps + pos) :
    Mirrors source (Passes source pos) (template site s).outcome
      (templateEnd source steps start ⟨pos, last⟩) := by
  induction hn : s.length using Nat.strongRecOn generalizing s pos steps last with
  | ind m ih =>
    subst hn
    have hend := h.add_byteLength
    obtain ⟨steps, rfl⟩ := Nat.exists_eq_add_of_le' (show 1 ≤ steps by omega)
    have hfails {after : Nat} (h : Reaches source after []) : Mirrors source (Passes source pos)
        (.error ⟨.unterminatedTemplate, site, [], false⟩)
        (.error (.fault ⟨.unterminatedTemplate, start⟩, ⟨after, last⟩)) := by
      rw [hsite]
      exact .failed h fun hne => absurd rfl hne
    rw [templateEnd]
    cases templateStart s with
    | nil =>
      simp only [h.unitAt_nil, template_nil_outcome]
      exact hfails (.inl h)
    | lone =>
      have hsize : byteLength ['\\'] = 1 := rfl
      rw [hsize] at hend
      obtain ⟨steps, rfl⟩ := Nat.exists_eq_add_of_le' (show 1 ≤ steps by omega)
      have hbehind : unitAt source (pos + 2) = none := unitAt_eq_none_iff.mpr (by omega)
      simp only [h.unitAt_cons, template_lone_outcome]
      rw [if_pos (by decide), templateEnd]
      have hreaches : Reaches source (pos + 2) [] := .inr ⟨rfl, by omega⟩
      simp only [hbehind]
      exact hfails hreaches
    | quote s =>
      simp only [h.unitAt_cons, template_quote_outcome]
      exact .done ⟨rfl, h.cons⟩
    | escaped c s =>
      have hsize : byteLength ('\\' :: c :: s) = 1 + (c.utf8Size + byteLength s) := rfl
      have hchar : TailAt source (pos + 1) (c :: s) := TailAt.append (t := ['\\']) h
      simp only [List.length_cons] at hlength ih
      simp only [h.unitAt_cons, template_escaped_outcome]
      rw [if_pos (by decide), templateEnd_over hchar (by omega)]
      refine (ih s.length (by omega) (by omega) hchar.cons (by omega) rfl).map
        fun text rest head hhead => ?_
      exact Passes.after ['\\'] (Passes.after [c] hhead)
    | @plain c s hquote hescape hdollar =>
      have hsize : byteLength (c :: s) = c.utf8Size + byteLength s := rfl
      have hnot : ¬(c = '$' ∧ unitAt source (pos + 1) = some (.ascii '\x7b')) := by
        rintro ⟨rfl, hbrace⟩
        have htail : TailAt source (pos + 1) s := h.cons
        exact hdollar rfl ((htail.unitAt_eq_ascii_iff (by decide)).mp hbrace)
      simp (disch := decide) only [h.unitAt_cons, ofChar_eq_ascii_iff, if_neg hescape,
        if_neg hquote, if_neg hnot, template_plain_outcome site hquote hescape hdollar]
      simp only [List.length_cons] at hlength ih
      rw [templateEnd_over h (by omega)]
      refine (ih s.length (by omega) (by omega) h.cons (by omega) rfl).map ?_
      exact fun text rest head hpasses => Passes.after [c] hpasses
    | substitution s =>
      have hsize : byteLength ('$' :: '\x7b' :: s) = 2 + byteLength s :=
        byteLength_append ['$', '\x7b'] s
      have hbrace : unitAt source (pos + 1) = some (.ascii '\x7b') :=
        (TailAt.append (t := ['$']) h).unitAt_cons
      have hinner : TailAt source (pos + 2) s := TailAt.append (t := ['$', '\x7b']) h
      simp only [List.length_cons] at hlength ih
      simp only [h.unitAt_cons, template_substitution_outcome]
      rw [if_neg (by decide), if_neg (by decide), if_pos ⟨rfl, hbrace⟩]
      refine (hsubstitution 0 (by omega) hinner (by omega) hsite rfl (by omega)).bind
        fun inner after head hread hhead => ?_
      obtain ⟨hpos, hafter⟩ := hhead
      have hlt := Reading.length_lt hread
      refine (ih after.length (by omega) (by omega) hafter (by omega) rfl).map
        fun text rest head' hhead' => ?_
      rw [hpos] at hhead'
      exact Passes.after ['$', '\x7b'] (Passes.after inner hhead')

/-! ### Tokens -/

/-- The piece of a script that a token read at an offset is. -/
def extentAt (start : Nat) (token : Lexeme) : Extent :=
  ⟨token.kind, start, start + byteLength token.text⟩

/-- That a token was read from an offset on, which is now the last one, and the rest of the script
stands behind it. -/
def Gives (source : List Char) (start : Nat) (token : Lexeme) (rest : List Char)
    (reached : Option Extent × Head) : Prop :=
  reached = (some (extentAt start token),
      ⟨(extentAt start token).stop, some (extentAt start token)⟩) ∧
    token.text ≠ [] ∧ TailAt source start (token.text ++ rest)

section

variable {token : Lexeme} {rest : List Char} (h : TailAt source start (token.text ++ rest))
include h

/-- The text of a token is cut out of the script where the token starts and ends. -/
theorem text?_extentAt : (extentAt start token).text? source = some token.text := h.slice?_eq

/-- What a slash starts behind a token is known from where the token stands. -/
theorem regexAllowed_extentAt :
    regexAllowed source (some (extentAt start token)) = .ok (opensRegex token.kind token.text) := by
  simp only [regexAllowed, text?_extentAt h]
  rfl

private theorem isPunct_extentAt (c : Char) :
    isPunct source (extentAt start token) c = .ok (decide (token = ⟨.punct, [c]⟩)) := by
  have htoken : token = ⟨.punct, [c]⟩ ↔ token.kind = .punct ∧ token.text = [c] := by
    cases token
    exact Lexeme.mk.injEq .. ▸ Iff.rfl
  simp only [isPunct, text?_extentAt h, htoken]
  split
  · next hkind =>
    have hkind : token.kind = .punct := hkind
    simp [hkind]
  · next hkind =>
    have hkind : token.kind ≠ .punct := hkind
    simp [hkind]

/-- A token of a substitution is counted by its text. -/
theorem depthBehind_extentAt (depth : Nat) :
    depthBehind source (extentAt start token) depth = .ok (depthAfter? depth token) := by
  simp only [depthBehind, isPunct_extentAt h, depthAfter?, bind, Except.bind, pure, Except.pure,
    decide_eq_true_eq]
  split_ifs
  · rfl
  · cases depth <;> rfl
  · rfl

end

/-- Behind a gap a token starts with some byte. -/
private theorem nextToken_of_unitAt {steps : Nat} {head : Head}
    (hstart : (leadEnd source head.pos >>= gapEnd source) = .ok start)
    (hunit : unitAt source start = some u) :
    nextToken source (steps + 1) head =
      (if u = .ascii '\x60' then
        (templateEnd source steps start ⟨start + 1, head.last⟩).map fun head =>
          (.template, head.pos)
      else move head.last (plainEnd source head.last start u)) >>= fun (kind, stop) =>
        .ok (some ⟨kind, start, stop⟩, ⟨stop, some ⟨kind, start, stop⟩⟩) := by
  rw [nextToken, hstart]
  simp only [move, Except.mapError, bind, Except.bind, hunit]
  rfl

/-- The next token is read by bytes as by characters, when substitutions of shorter texts are. -/
private theorem nextToken_mirrors_of {n : Nat} (steps : Nat) (head : Head)
    (hsubstitution : MirrorsSubstitutions source n) (hlength : s.length ≤ n + 1)
    (h : TailAt source pos s)
    (hskip : (leadEnd source head.pos >>= gapEnd source) = gapEnd source pos)
    (hallowed : s ≠ [] → regexAllowed source head.last = .ok slash)
    (hsteps : byteLength source + 4 ≤ steps + pos) :
    match (gap s).2 with
    | [] => nextToken source steps head = .ok (none, ⟨byteLength source, head.last⟩)
    | c :: after =>
      Mirrors source (Gives source (pos + byteLength (gap s).1)) (lexeme slash c after).outcome
        (nextToken source steps head) := by
  have hend := h.add_byteLength
  obtain ⟨steps, rfl⟩ := Nat.exists_eq_add_of_le' (show 1 ≤ steps by omega)
  have hskipped : TailAt source (pos + byteLength (gap s).1) (gap s).2 := by
    refine TailAt.append ?_
    rwa [gap_append]
  have hsep := separator?_gap s
  have hshorter := gap_length s
  have hle : pos ≤ pos + byteLength (gap s).1 := Nat.le_add_right _ _
  rw [gapEnd_gap h] at hskip
  generalize pos + byteLength (gap s).1 = start at hskipped hskip hle ⊢
  cases hafter : (gap s).2 with
  | nil =>
    rw [hafter] at hskipped
    have hstart := hskipped.add_byteLength
    rw [gapEnd_of_le (by rw [← hstart]; exact Nat.le_refl _)] at hskip
    rw [nextToken, hskip, ← hstart]
    simp only [move, Except.mapError, bind, Except.bind, hskipped.unitAt_nil]
    rfl
  | cons c after =>
    rw [hafter] at hskipped hsep hshorter
    rw [List.length_cons] at hshorter
    have hne : s ≠ [] := by
      rintro rfl
      simp at hshorter
    have hallowed := hallowed hne
    have hsite : start = byteLength source - byteLength (c :: after) := by
      have hsize := hskipped.add_byteLength
      omega
    dsimp only
    by_cases hcomment : c = '/' ∧ after.head? = some '*'
    · obtain ⟨rfl, hstar⟩ := hcomment
      obtain ⟨t, rfl⟩ := List.head?_eq_some_iff.mp hstar
      rw [gapEnd_comment hskipped hsep] at hskip
      rw [lexeme_outcome, if_neg (by decide), if_neg (by decide), if_pos ⟨rfl, hstar⟩, nextToken,
        hskip]
      have hfailed : Mirrors source (Gives source start)
          (.error ⟨.unterminatedComment, '/' :: '*' :: t, '/' :: '*' :: t, slash⟩)
          (.error (.fault ⟨.unterminatedComment, _⟩, ⟨start, head.last⟩)) :=
        .failed (.inl hskipped) fun _ => hallowed
      rwa [← hsite] at hfailed
    · rw [gapEnd_token hskipped hsep hcomment] at hskip
      rw [nextToken_of_unitAt hskip hskipped.unitAt_cons]
      refine Mirrors.map_reached (show Mirrors source (Ended source start) _ _ from ?_) ?_
      · simp (disch := decide) only [ofChar_eq_ascii_iff]
        split
        · next htemplate =>
          subst htemplate
          have htail : TailAt source (start + 1) after := hskipped.cons
          have hwhole : Mirrors source (fun token rest head => token.kind = .template ∧
              Passes source start token.text rest head)
              ((template ('\x60' :: after) after).outcome.map fun read =>
                ((⟨.template, '\x60' :: read.1⟩ : Lexeme), read.2))
              (templateEnd source steps start ⟨start + 1, head.last⟩) := by
            refine (templateEnd_mirrors hsubstitution (by omega) htail hsite (by omega)).map
              fun text rest head hhead => ?_
            exact ⟨rfl, Passes.after ['\x60'] hhead⟩
          rw [lexeme_outcome, if_neg (by decide), if_pos rfl]
          change Mirrors source _ _ (templateEnd source steps start ⟨start + 1, head.last⟩ >>=
            fun head => .ok (TokenKind.template, head.pos))
          refine hwhole.map_reached fun token rest head _ hhead => ⟨_, rfl, ?_⟩
          obtain ⟨hkind, hpos, hrest⟩ := hhead
          exact ⟨by rw [hkind, hpos], hrest⟩
        · next htemplate => exact plainEnd_mirrors hskipped hsep htemplate hcomment hallowed
      · rintro token rest ⟨kind, stop⟩ hread ⟨heq, hrest⟩
        obtain ⟨rfl, rfl⟩ := Prod.mk.inj heq
        have hlexeme : LexemeRead slash (c :: after) token rest :=
          lexeme?_eq_some_iff.mp (by rw [lexeme?, Reading.result?_eq, hread]; rfl)
        obtain ⟨htext, hnonempty⟩ := hlexeme.append
        rw [htext] at hskipped
        exact ⟨_, rfl, rfl, hnonempty, hskipped⟩

/-- Substitutions are read by bytes as by characters. -/
private theorem mirrorsSubstitutions (source : List Char) (n : Nat) :
    MirrorsSubstitutions source n := by
  induction n with
  | zero =>
    intro s site pos start depth slash steps last hlength
    omega
  | succ n ih =>
    intro s site pos start depth slash steps last hlength h hpos hsite hallowed hsteps
    have hend := h.add_byteLength
    obtain ⟨steps, rfl⟩ := Nat.exists_eq_add_of_le' (show 1 ≤ steps by omega)
    have hskip : (leadEnd source pos >>= gapEnd source) = gapEnd source pos := by
      rw [leadEnd, if_pos (by omega)]
      rfl
    have hnext := nextToken_mirrors_of steps ⟨pos, last⟩ ih (by omega) h hskip (fun _ => hallowed)
      (by omega)
    rw [substitution_outcome, substitutionEnd]
    cases hafter : (gap s).2 with
    | nil =>
      have hreaches : Reaches source (byteLength source) [] :=
        .inl ⟨source, (List.append_nil source).symm, rfl⟩
      rw [hafter] at hnext
      rw [hnext, hsite]
      exact .failed hreaches fun hne => absurd rfl hne
    | cons c after =>
      rw [hafter] at hnext
      refine hnext.bind fun token rest reached hread hgives => ?_
      obtain ⟨rfl, hne, htail⟩ := hgives
      have hsize := byteLength_pos hne
      have hlt := Reading.length_lt hread
      have hle := gap_length s
      rw [hafter] at hle
      have hread' : TailAt source (pos + byteLength ((gap s).1 ++ token.text)) rest := by
        rw [byteLength_append, ← Nat.add_assoc]
        exact htail.append
      have hstop : (extentAt (pos + byteLength (gap s).1) token).stop =
          pos + byteLength ((gap s).1 ++ token.text) := by
        rw [byteLength_append, ← Nat.add_assoc]
        rfl
      simp only [bind, Except.bind, depthBehind_extentAt htail, hstop]
      cases depthAfter? depth token with
      | none => exact .done ⟨rfl, hread'⟩
      | some depth =>
        have hallowed := regexAllowed_extentAt htail
        rw [List.length_cons] at hlt hle
        rw [byteLength_append] at hread' ⊢
        refine (ih depth (by omega) hread' (by omega) hsite hallowed (by omega)).map
          fun text rest head hhead => ?_
        rw [← byteLength_append] at hhead
        exact Passes.after _ hhead

/-- The next token is read by bytes as by characters. -/
theorem nextToken_mirrors {steps : Nat} {head : Head} (h : TailAt source pos s)
    (hskip : (leadEnd source head.pos >>= gapEnd source) = gapEnd source pos)
    (hallowed : s ≠ [] → regexAllowed source head.last = .ok slash)
    (hsteps : byteLength source + 4 ≤ steps + pos) :
    match (gap s).2 with
    | [] => nextToken source steps head = .ok (none, ⟨byteLength source, head.last⟩)
    | c :: after =>
      Mirrors source (Gives source (pos + byteLength (gap s).1)) (lexeme slash c after).outcome
        (nextToken source steps head) :=
  nextToken_mirrors_of steps head (mirrorsSubstitutions source s.length) (Nat.le_succ _) h hskip
    hallowed hsteps

end ByteReader

end Reclass.Script
