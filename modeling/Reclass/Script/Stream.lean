import Reclass.Script.Reading

/-!
# Token streams

The tokens of a script, one after the other, each with its place. A stream can be asked again after
an error and goes on where the reading stopped.
-/

namespace Reclass.Script

/-- A stream between two tokens: the byte offset it has reached, the text from there on, and
whether a slash would start a regular expression. -/
structure TokenStream where
  offset : Nat
  rest : List Char
  slash : Bool
  deriving DecidableEq, Repr

namespace TokenStream

/-- A stream at the start of a script, behind what only the start may hold. -/
def ofSource (source : String) : TokenStream :=
  let start := lead source.toList
  ⟨Text.byteLength start.1, start.2, true⟩

/-- Reads the next token; there is none when only a gap is left. After an error the stream stands
where the reading stopped. -/
def next (stream : TokenStream) : Except SyntaxError (Option Token) × TokenStream :=
  let skipped := (gap stream.rest).1
  let start := stream.offset + Text.byteLength skipped
  match (gap stream.rest).2 with
  | [] => (.ok none, ⟨start, [], stream.slash⟩)
  | c :: s =>
    match lexeme stream.slash c s with
    | .done token rest _ =>
      (.ok (some ⟨token.kind, skipped, start, token.text⟩),
        ⟨start + Text.byteLength token.text, rest, opensRegex token.kind token.text⟩)
    | .failed failure =>
      let offsetOf (suffix : List Char) :=
        start + (Text.byteLength (c :: s) - Text.byteLength suffix)
      (.error ⟨failure.fault, offsetOf failure.site⟩,
        ⟨offsetOf failure.rest, failure.rest, failure.slash⟩)

/-- Reading a token leaves strictly less text. -/
theorem next_length {stream after : TokenStream} {t : Token}
    (h : stream.next = (.ok (some t), after)) : after.rest.length < stream.rest.length := by
  unfold next at h
  split at h
  · simp at h
  · next c s hgap =>
    have hle := gap_length stream.rest
    rw [hgap] at hle
    split at h
    · next hlt _ =>
      simp only [Prod.mk.injEq] at h
      rw [← h.2]
      exact Nat.lt_of_lt_of_le hlt hle
    · simp at h

/-- All tokens that are left, up to the end or the first error. -/
def tokens (stream : TokenStream) : Except SyntaxError (List Token) :=
  match _h : stream.next with
  | (.error e, _) => .error e
  | (.ok none, _) => .ok []
  | (.ok (some t), after) => (tokens after).map (t :: ·)
termination_by stream.rest.length
decreasing_by exact next_length _h

end TokenStream

/-- The tokens of a script. -/
def tokenize (source : String) : Except SyntaxError (List Token) :=
  (TokenStream.ofSource source).tokens

end Reclass.Script
