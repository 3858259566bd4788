import Reclass.Proofs.Handler.Registration
import Reclass.Proofs.Handler.Written
import Reclass.Proofs.Script.Calls

/-!
# Where faults are found

A fault of a registration is found where one of the tokens of the source starts or ends, or at the
end of the source, and a fault of a member where one of its tokens starts or ends. So every fault is
at a place of the source, where the position that is shown for it is exact.
-/

namespace Reclass

open Script Text

/-- That a fault is found where a token starts or ends. -/
def SyntaxError.IsAt (tokens : List Token) (e : SyntaxError) : Prop :=
  ∃ t ∈ tokens, e.offset = t.start ∨ e.offset = t.stop

section

variable {tokens rest : List Token} {t : Token} {fault : Fault} {stop : Nat}

/-- A fault at the start of a token is found where a token starts. -/
theorem isAt_start (h : t ∈ tokens) : SyntaxError.IsAt tokens ⟨fault, t.start⟩ := ⟨t, h, .inl rfl⟩

/-- A fault at the end of a token is found where a token ends. -/
theorem isAt_stop (h : t ∈ tokens) : SyntaxError.IsAt tokens ⟨fault, t.stop⟩ := ⟨t, h, .inr rfl⟩

/-- The end of the last token of some is the end of one of them. -/
theorem lastStop_eq (t : Token) (rest : List Token) :
    ∃ u ∈ t :: rest, Token.lastStop t rest = u.stop := by
  unfold Token.lastStop
  cases hlast : rest.getLast? with
  | none => exact ⟨t, List.mem_cons_self, rfl⟩
  | some u => exact ⟨u, List.mem_cons_of_mem _ (List.mem_of_getLast? hlast), rfl⟩

/-! ### Groups -/

private theorem closeInside_failsAs {opener : Bracket × Nat} {pending : List (Bracket × Nat)}
    (hopener : ∀ p ∈ opener :: pending, ∃ t ∈ tokens, p.2 = t.start) (hrest : rest ⊆ tokens) :
    (closeInside opener pending rest).FailsAs (SyntaxError.IsAt tokens) := by
  fun_induction closeInside opener pending rest with
  | case1 pending =>
    have hmem : pending.head?.getD opener ∈ opener :: pending := by
      cases pending <;> simp
    obtain ⟨t, ht, hstart⟩ := hopener _ hmem
    exact Except.failsAs_error ⟨t, ht, .inl hstart⟩
  | case2 pending t rest b hopens ih =>
    obtain ⟨ht, hrest⟩ := List.cons_subset.mp hrest
    obtain ⟨hfirst, hpending⟩ := List.forall_mem_cons.mp hopener
    refine (ih ?_ hrest).map _
    exact List.forall_mem_cons.mpr ⟨hfirst, List.forall_mem_cons.mpr ⟨⟨t, ht, rfl⟩, hpending⟩⟩
  | case3 t rest hopens pending hcloses ih =>
    exact (ih hopener (List.cons_subset.mp hrest).2).map _
  | case4 => exact Except.failsAs_ok _
  | case5 => exact Except.failsAs_error (isAt_start (List.cons_subset.mp hrest).1)
  | case6 t rest hopens inner pending hcloses ih =>
    obtain ⟨hfirst, hpending⟩ := List.forall_mem_cons.mp hopener
    refine (ih ?_ (List.cons_subset.mp hrest).2).map _
    exact List.forall_mem_cons.mpr ⟨hfirst, (List.forall_mem_cons.mp hpending).2⟩
  | case7 => exact Except.failsAs_error (isAt_start (List.cons_subset.mp hrest).1)

/-- A group that is not closed is refused at a token. -/
theorem closeGroup_failsAs (h : t :: rest ⊆ tokens) :
    (closeGroup t rest).FailsAs (SyntaxError.IsAt tokens) := by
  obtain ⟨ht, hrest⟩ := List.cons_subset.mp h
  unfold closeGroup
  split
  · exact Except.failsAs_error (isAt_start ht)
  · refine closeInside_failsAs ?_ hrest
    exact List.forall_mem_cons.mpr ⟨⟨t, ht, rfl⟩, List.forall_mem_nil _⟩

/-- What is behind a group was behind its opening delimiter. -/
theorem closeGroup_rest_subset {group : Closed} (h : closeGroup t rest = .ok group) :
    group.rest ⊆ rest := by
  rw [(closeGroup_eq_ok h).1]
  exact fun u hu => List.mem_append_right _ (List.mem_cons_of_mem _ hu)

end

namespace Member

variable {all tokens others : List Token} {t first : Token} {stop : Nat}

/-- What is not a key is refused at its token. -/
theorem readKey_failsAs (ht : t ∈ all) : (readKey t).FailsAs (SyntaxError.IsAt all) := by
  unfold readKey
  split
  · exact Except.failsAs_ok _
  · exact Except.failsAs_ok _
  · exact Except.failsAs_ok _
  · exact Except.failsAs_error (isAt_start ht)

/-- What is not a signature is refused at a token, or at the end of the member. -/
theorem readSignature_failsAs (hstop : ∃ u ∈ all, stop = u.stop) (htokens : tokens ⊆ all) :
    (readSignature stop tokens).FailsAs (SyntaxError.IsAt all) := by
  obtain ⟨last, hlast, rfl⟩ := hstop
  unfold readSignature
  split
  · exact Except.failsAs_error (isAt_stop hlast)
  · next p rest =>
    obtain ⟨hp, hrest⟩ := List.cons_subset.mp htokens
    split
    · exact Except.failsAs_error (isAt_start hp)
    · refine (closeGroup_failsAs htokens).bind fun params hparams => ?_
      have hbehind := List.Subset.trans (closeGroup_rest_subset hparams) hrest
      split
      · exact Except.failsAs_error (isAt_stop hlast)
      · next b rest hparamsRest =>
        rw [hparamsRest] at hbehind
        split
        · exact Except.failsAs_error (isAt_start (List.cons_subset.mp hbehind).1)
        · exact (closeGroup_failsAs hbehind).bind fun body _ => Except.failsAs_ok _

/-- What is behind a parameter list and a block was behind their start. -/
theorem readSignature_rest_subset {signature : Signature}
    (h : readSignature stop tokens = .ok signature) : signature.rest ⊆ tokens := by
  obtain ⟨params, body, rfl, -⟩ := readSignature_eq_ok h
  exact fun t ht => List.mem_append_right _ (List.mem_append_right _ ht)

/-- A method that is not complete is refused at a token. -/
theorem readShorthand_failsAs (modifier : Modifier) (hall : first :: others ⊆ all)
    (htokens : tokens ⊆ all) :
    (readShorthand first others modifier tokens).FailsAs (SyntaxError.IsAt all) := by
  obtain ⟨last, hlast, hstop⟩ := lastStop_eq first others
  have hstop : ∃ u ∈ all, Token.lastStop first others = u.stop := ⟨last, hall hlast, hstop⟩
  unfold readShorthand
  dsimp only
  split
  · obtain ⟨u, hu, hstop⟩ := hstop
    rw [hstop]
    exact Except.failsAs_error (isAt_stop hu)
  · next t rest =>
    obtain ⟨ht, hrest⟩ := List.cons_subset.mp htokens
    refine (readKey_failsAs ht).bind fun key _ => ?_
    refine (readSignature_failsAs hstop hrest).bind fun signature hsignature => ?_
    have hbehind := List.Subset.trans (readSignature_rest_subset hsignature) hrest
    split
    · next extra _ hextra =>
      rw [hextra] at hbehind
      exact Except.failsAs_error (isAt_start (List.cons_subset.mp hbehind).1)
    · exact Except.failsAs_ok _

/-- A function that is not complete is refused at a token, or at the end of the member. -/
theorem readFunction?_failsAs (hstop : ∃ u ∈ all, stop = u.stop) (htokens : tokens ⊆ all) :
    (readFunction? stop tokens).FailsAs (SyntaxError.IsAt all) := by
  -- each optional token leaves an end of the tokens in front of it
  have hdrop (test : Token → Bool) {ts : List Token} (hts : ts ⊆ all) :
      (dropIf test ts).2 ⊆ all := by
    obtain ⟨before, hbefore⟩ := dropIf_suffix test ts
    rw [hbefore] at hts
    exact (List.append_subset.mp hts).2
  have hasync : (dropAsyncFunction tokens).2 ⊆ all := by
    obtain ⟨before, hbefore⟩ := dropAsyncFunction_suffix tokens
    rw [hbefore] at htokens
    exact (List.append_subset.mp htokens).2
  unfold readFunction?
  dsimp only
  split
  · exact Except.failsAs_ok _
  · refine (readSignature_failsAs hstop (hdrop _ (hdrop _ (hdrop _ hasync)))).bind ?_
    intro signature _
    split
    · exact Except.failsAs_ok _
    · exact Except.failsAs_ok _

/-- An arrow whose body is not complete is refused at a token. -/
theorem readArrowBody?_failsAs (modifier : Modifier) (params : String) (htokens : tokens ⊆ all) :
    (readArrowBody? modifier params tokens).FailsAs (SyntaxError.IsAt all) := by
  unfold readArrowBody?
  split
  · exact Except.failsAs_ok _
  · next arrow body =>
    obtain ⟨harrow, hbody⟩ := List.cons_subset.mp htokens
    split
    · exact Except.failsAs_ok _
    · split
      · exact Except.failsAs_error (isAt_stop harrow)
      · next head rest =>
        dsimp only
        split
        · exact ((closeGroup_failsAs hbody).map _).bind fun isBlock _ => Except.failsAs_ok _
        · exact (Except.failsAs_ok false).bind fun isBlock _ => Except.failsAs_ok _

/-- An arrow function that is not complete is refused at a token. -/
theorem readArrow?_failsAs (htokens : tokens ⊆ all) :
    (readArrow? tokens).FailsAs (SyntaxError.IsAt all) := by
  have hasync : (dropAsync tokens).2 ⊆ all := by
    obtain ⟨before, hbefore⟩ := dropAsync_suffix tokens
    rw [hbefore] at htokens
    exact (List.append_subset.mp htokens).2
  unfold readArrow?
  dsimp only
  split
  · exact Except.failsAs_ok _
  · next p rest hdropped =>
    rw [hdropped] at hasync
    obtain ⟨-, hrest⟩ := List.cons_subset.mp hasync
    split
    · refine (closeGroup_failsAs hasync).bind fun params hparams => ?_
      exact readArrowBody?_failsAs _ _ (List.Subset.trans (closeGroup_rest_subset hparams) hrest)
    · split
      · exact readArrowBody?_failsAs _ _ hrest
      · exact Except.failsAs_ok _

/-- A method value that is not complete is refused at a token, or at the end of the member. -/
theorem readMethod?_failsAs (hstop : ∃ u ∈ all, stop = u.stop) (htokens : tokens ⊆ all) :
    (readMethod? stop tokens).FailsAs (SyntaxError.IsAt all) := by
  refine (readFunction?_failsAs hstop htokens).bind fun method? _ => ?_
  cases method? with
  | some method => exact Except.failsAs_ok _
  | none => exact readArrow?_failsAs htokens

/-- A member that starts with its key is refused at a token. -/
theorem readPlain_failsAs (hall : first :: others ⊆ all) :
    (readPlain first others).FailsAs (SyntaxError.IsAt all) := by
  obtain ⟨hfirst, hothers⟩ := List.cons_subset.mp hall
  refine (readKey_failsAs hfirst).bind fun key _ => ?_
  split
  · split
    · exact Except.failsAs_ok _
    · exact Except.failsAs_error (isAt_stop hfirst)
  · next t value =>
    obtain ⟨ht, hvalue⟩ := List.cons_subset.mp hothers
    split
    · split
      · exact Except.failsAs_error (isAt_stop ht)
      · obtain ⟨last, hlast, hstop⟩ := lastStop_eq t value
        refine (readMethod?_failsAs ⟨last, hothers hlast, hstop⟩ hvalue).bind fun method _ => ?_
        exact Except.failsAs_ok _
    · split
      · exact readShorthand_failsAs .plain hall hall
      · exact Except.failsAs_error (isAt_start ht)

/-- A member is refused at a token. -/
theorem read_failsAs (hall : first :: others ⊆ all) :
    (read first others).FailsAs (SyntaxError.IsAt all) := by
  obtain ⟨hfirst, hothers⟩ := List.cons_subset.mp hall
  unfold read
  split
  · exact Except.failsAs_error (isAt_start hfirst)
  split
  · exact Except.failsAs_error (isAt_start hfirst)
  split
  · exact readShorthand_failsAs .generator hall hothers
  split
  · next second third rest =>
    split
    · exact readShorthand_failsAs _ hall hothers
    · split
      · exact readShorthand_failsAs _ hall (List.cons_subset.mp hothers).2
      · exact readPlain_failsAs hall
  · split
    · exact readShorthand_failsAs _ hall (List.nil_subset _)
    · exact readPlain_failsAs hall
  · exact readPlain_failsAs hall

/-! ### The places of members -/

/-- A member has its place at its key, which is one of its tokens. -/
theorem read_offset {m : Member} (hall : first :: others ⊆ all)
    (h : read first others = .ok m) : ∃ t ∈ all, m.offset = t.start := by
  cases readFrom_of_read h with
  | name => exact ⟨first, hall List.mem_cons_self, rfl⟩
  | value => exact ⟨first, hall List.mem_cons_self, rfl⟩
  | @shorthand before rest t _ _ _ hsplit =>
    refine ⟨t, hall ?_, rfl⟩
    rw [hsplit]
    exact List.mem_append_right _ List.mem_cons_self

/-! ### The members of a literal -/

/-- A member that may not be kept is refused at a token. -/
theorem readOne_failsAs (hall : first :: others ⊆ all) :
    (readOne first others).FailsAs (SyntaxError.IsAt all) := by
  refine (read_failsAs hall).bind fun m hm => ?_
  obtain ⟨t, ht, hoffset⟩ := read_offset hall hm
  split
  · exact Except.failsAs_error ⟨t, ht, .inl hoffset⟩
  · exact Except.failsAs_ok _

/-- The members of a literal are refused at a token. -/
theorem readEach_failsAs (htokens : tokens ⊆ all) :
    (readEach tokens).FailsAs (SyntaxError.IsAt all) := by
  fun_induction readEach tokens with
  | case1 => exact Except.failsAs_ok _
  | case2 => exact Except.failsAs_error (isAt_start (List.cons_subset.mp htokens).1)
  | case3 t rest first others after hcut ih =>
    obtain ⟨comma, hsplit⟩ := cutAtComma_append 0 (t :: rest)
    rw [hcut] at hsplit
    rw [hsplit] at htokens
    obtain ⟨hsegment, hbehind⟩ := List.append_subset.mp htokens
    refine (readOne_failsAs hsegment).bind fun member _ => ?_
    exact (ih (List.append_subset.mp hbehind).2).map _

/-- The members of a literal fail where one of its tokens starts or ends. -/
theorem ofBody_failsAs (body : List Token) :
    (ofBody body).FailsAs (SyntaxError.IsAt body) := by
  rw [ofBody, readAll_eq]
  exact (readEach_failsAs (List.Subset.refl body)).map _

end Member

namespace Registration

variable {all tokens : List Token} {start : Start} {size : Nat}

/-- That a fault is found where a token starts or ends, or at the end of the source. -/
def IsAtOrBehind (tokens : List Token) (size : Nat) (e : SyntaxError) : Prop :=
  e.IsAt tokens ∨ e.offset = size

private theorem isAtOrBehind_start {t : Token} {fault : Fault} (h : t ∈ tokens) :
    IsAtOrBehind tokens size ⟨fault, t.start⟩ := .inl (isAt_start h)

private theorem isAtOrBehind_end {fault : Fault} : IsAtOrBehind tokens size ⟨fault, size⟩ :=
  .inr rfl

/-- What stands behind the literal is refused at a token, or at the end of the script. -/
theorem readParent_failsAs (htokens : tokens ⊆ all) :
    (readParent size tokens).FailsAs (IsAtOrBehind all size) := by
  unfold readParent
  split
  · exact Except.failsAs_error isAtOrBehind_end
  next t rest =>
  obtain ⟨ht, hrest⟩ := List.cons_subset.mp htokens
  split
  · exact Except.failsAs_ok _
  split
  · exact Except.failsAs_error (isAtOrBehind_start ht)
  split
  · exact Except.failsAs_error isAtOrBehind_end
  next name rest =>
  obtain ⟨hname, hrest⟩ := List.cons_subset.mp hrest
  split
  · exact Except.failsAs_ok _
  split
  · exact Except.failsAs_error (isAtOrBehind_start hname)
  next parent _ =>
  dsimp only
  split
  · exact Except.failsAs_error isAtOrBehind_end
  · next close _ hclose =>
    have hmem : close ∈ all := by
      cases rest with
      | nil => cases hclose
      | cons comma rest =>
        dsimp only at hclose
        split at hclose
        · exact hrest (by simp [hclose])
        · exact hrest (by simp [hclose])
    split
    · exact Except.failsAs_ok _
    · exact Except.failsAs_error (isAtOrBehind_start hmem)

/-- A registration is refused at a token, or at the end of the script. -/
theorem read_failsAs (harguments : start.arguments ⊆ all) :
    (read size start).FailsAs (IsAtOrBehind all size) := by
  unfold read
  split
  · exact Except.failsAs_error isAtOrBehind_end
  next name rest hstart =>
  rw [hstart] at harguments
  obtain ⟨hname, hrest⟩ := List.cons_subset.mp harguments
  split
  · exact Except.failsAs_error (isAtOrBehind_start hname)
  · exact Except.failsAs_error isAtOrBehind_end
  next value comma rest _ =>
  obtain ⟨hcomma, hrest⟩ := List.cons_subset.mp hrest
  split
  · exact Except.failsAs_error (isAtOrBehind_start hcomma)
  split
  · exact Except.failsAs_error isAtOrBehind_end
  next opener rest =>
  split
  · exact Except.failsAs_error (isAtOrBehind_start (List.cons_subset.mp hrest).1)
  have hgroup := closeGroup_failsAs hrest
  refine Except.FailsAs.bind (fun e he => .inl (hgroup e he)) fun literal hliteral => ?_
  have hbehind := List.Subset.trans (closeGroup_rest_subset hliteral) (List.cons_subset.mp hrest).2
  exact (readParent_failsAs hbehind).bind fun ends _ => Except.failsAs_ok _

end Registration

/-! ### The places of a source -/

/-- The tokens of a source start and end at its places. -/
theorem SyntaxError.IsAt.isPlace {source : String} {tokens : List Token} {e : SyntaxError}
    (h : e.IsAt tokens) (htokens : tokenize source = .ok tokens) :
    IsPlace source.toList e.offset := by
  obtain ⟨t, ht, hoffset⟩ := h
  obtain ⟨-, hpieces, -⟩ := tokens_tile_source htokens
  obtain ⟨-, before, after, hsource, hstart⟩ := hpieces t ht
  rcases hoffset with hoffset | hoffset
  · exact ⟨before, t.text ++ after, hsource, by rw [hstart, hoffset]⟩
  · refine ⟨before ++ t.text, after, by rw [hsource, List.append_assoc], ?_⟩
    rw [byteLength_append, hstart, hoffset, Token.stop]

/-- A registration fails at a place of its source. -/
theorem Registration.find?_failsAs (kinds : List HandlerKind) (source : String) :
    (find? kinds source).FailsAs fun e => IsPlace source.toList e.offset := by
  have htokenize : (tokenize source).FailsAs fun e => IsPlace source.toList e.offset :=
    fun e he => (TokenStream.standsIn_ofSource source).isPlace_of_tokens he
  refine htokenize.bind fun tokens htokens => ?_
  split
  · exact Except.failsAs_ok _
  next start hstart =>
  obtain ⟨a, b, c, d, hsplit, -⟩ := findStart?_eq_some hstart
  have harguments : start.arguments ⊆ tokens := by
    rw [hsplit]
    exact fun t ht => by simp [ht]
  refine Except.FailsAs.bind (fun e he => ?_) fun call _ => Except.failsAs_ok _
  rcases read_failsAs harguments e he with hat | hbehind
  · exact hat.isPlace htokens
  · rw [hbehind, ← byteLength_toList]
    exact isPlace_byteLength source.toList

/-- That a source is refused with a fault: where its tokens are read, where its registration is, or
where the members of the property literal are. -/
inductive RefusedWith (source : String) (e : SyntaxError) : Prop
  | tokens (h : tokenize source = .error e)
  | registration (kinds : List HandlerKind) (h : Registration.find? kinds source = .error e)
  | members (kinds : List HandlerKind) {call : Registration}
      (hcall : Registration.find? kinds source = .ok (some call))
      (h : Member.ofBody call.body = .error e)

/-- A source is refused at one of its places. -/
theorem RefusedWith.isPlace {source : String} {e : SyntaxError} (h : RefusedWith source e) :
    IsPlace source.toList e.offset := by
  cases h with
  | tokens h => exact (TokenStream.standsIn_ofSource source).isPlace_of_tokens h
  | registration kinds h => exact Registration.find?_failsAs kinds source e h
  | members kinds hcall h =>
    obtain ⟨tokens, htokens, hbody⟩ := Registration.body_isInfix hcall
    obtain ⟨t, ht, hoffset⟩ := Member.ofBody_failsAs _ e h
    exact SyntaxError.IsAt.isPlace ⟨t, hbody.subset ht, hoffset⟩ htokens

/-- Every fault with which a source is refused is at one of its places, and the position shown for
it is that behind the text in front of it: no offset falls inside of a character or behind the end.
Positions come in the order of the places, by line and then by column, so two faults at different
offsets are never shown at one position. -/
theorem faults_shown_exactly (source : String) :
    (∀ e, RefusedWith source e → e.offset ≤ source.utf8ByteSize ∧
      ∃ before after, source.toList = before ++ after ∧ byteLength before = e.offset ∧
        takeBytes? (min e.offset (byteLength source.toList)) source.toList = some before ∧
        Position.ofOffset source.toList e.offset = .after before) ∧
    (∀ offset offset', IsPlace source.toList offset → IsPlace source.toList offset' →
      offset < offset' →
      (Position.ofOffset source.toList offset).Before (.ofOffset source.toList offset')) ∧
    ∀ e e', RefusedWith source e → RefusedWith source e' → e.offset ≠ e'.offset →
      Position.ofOffset source.toList e.offset ≠ .ofOffset source.toList e'.offset := by
  refine ⟨fun e h => ?_, fun offset offset' h h' hlt => Position.ofOffset_before h h' hlt,
    fun e e' h h' hne heq => hne (Position.eq_of_ofOffset_eq h.isPlace h'.isPlace heq)⟩
  have hle := h.isPlace.le_byteLength
  obtain ⟨before, after, hsource, hoffset⟩ := h.isPlace
  refine ⟨by rwa [← byteLength_toList], before, after, hsource, hoffset, ?_, ?_⟩
  · rw [Nat.min_eq_left hle, ← hoffset, hsource]
    exact takeBytes?_append before after
  · rw [← hoffset, hsource]
    exact Position.ofOffset_append before after

/-- A load and an action without names, on two lines, behind characters of more than one byte. -/
theorem faults_shown_exactly_of_two_lines :
    ∃ source e e', source = "/*é*/NGS.createLoad(1)\n'ß';NGS.createAction(2)" ∧
      Registration.find? [.load] source = .error e ∧ e.offset = 21 ∧
      Registration.find? [.action] source = .error e' ∧ e'.offset = 46 ∧
      Position.ofOffset source.toList e.offset = ⟨1, 21⟩ ∧
      Position.ofOffset source.toList e'.offset = ⟨2, 22⟩ ∧
      Position.ofOffset source.toList e.offset ≠ .ofOffset source.toList e'.offset := by
  have hload : Registration.find? [.load] "/*é*/NGS.createLoad(1)\n'ß';NGS.createAction(2)" =
      .error ⟨.nameNotString .load "1", 21⟩ := by decide +kernel
  have haction : Registration.find? [.action] "/*é*/NGS.createLoad(1)\n'ß';NGS.createAction(2)" =
      .error ⟨.nameNotString .action "2", 46⟩ := by decide +kernel
  obtain ⟨-, -, hdiffer⟩ := faults_shown_exactly "/*é*/NGS.createLoad(1)\n'ß';NGS.createAction(2)"
  exact ⟨_, _, _, rfl, hload, rfl, haction, rfl, by decide +kernel, by decide +kernel,
    hdiffer _ _ (.registration _ hload) (.registration _ haction) (by decide)⟩

end Reclass
