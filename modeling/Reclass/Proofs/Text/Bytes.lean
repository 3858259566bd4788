import Reclass.Proofs.Text.Places

/-!
# The bytes of a text

A text as the bytes of its encoding in UTF-8. A byte is a character of ASCII or a part of a longer
character, and a piece of a text can be cut out between two of its places only: a cut that starts
or ends inside of a character, or behind the end, has no result.
-/

namespace Reclass.Text

/-- The bytes of a text in UTF-8. -/
def utf8 (s : List Char) : List UInt8 := s.flatMap String.utf8EncodeChar

/-- What a byte is in a text. -/
inductive CodeUnit where
  /-- A character of ASCII. -/
  | ascii (c : Char)
  /-- One of the bytes of a longer character. -/
  | part
  deriving DecidableEq, Repr

namespace CodeUnit

/-- A byte below 128 is a character of ASCII. -/
def ofByte (b : UInt8) : CodeUnit := if b.toNat < 0x80 then .ascii (Char.ofNat b.toNat) else .part

/-- The first byte of a character. -/
def ofChar (c : Char) : CodeUnit := if c.toNat < 0x80 then .ascii c else .part

end CodeUnit

/-- The byte at an offset; there is none behind the end. -/
def unitAt (source : List Char) (pos : Nat) : Option CodeUnit :=
  (utf8 source)[pos]?.map CodeUnit.ofByte

/-- The text from an offset on. -/
def tailFrom? (pos : Nat) : List Char → Option (List Char)
  | [] => if pos = 0 then some [] else none
  | c :: s =>
    if pos = 0 then some (c :: s)
    else if c.utf8Size ≤ pos then tailFrom? (pos - c.utf8Size) s
    else none

/-- The text between two offsets. -/
def slice? (source : List Char) (start stop : Nat) : Option (List Char) :=
  if start ≤ stop then (tailFrom? start source).bind (takeBytes? (stop - start)) else none

/-- That a text is what another one has from an offset on. -/
def TailAt (source : List Char) (pos : Nat) (s : List Char) : Prop :=
  ∃ before, source = before ++ s ∧ byteLength before = pos

variable {source s t : List Char} {pos k : Nat} {c : Char}

/-! ### Encoded characters -/

/-- A text has as many bytes as its characters need. -/
theorem length_utf8 (s : List Char) : (utf8 s).length = byteLength s := by
  induction s with
  | nil => rfl
  | cons c s ih =>
    rw [utf8, List.flatMap_cons, List.length_append, String.length_utf8EncodeChar, byteLength, ← ih,
      utf8]

/-- A character of ASCII takes one byte. -/
theorem utf8Size_eq_one (hc : c.toNat < 0x80) : c.utf8Size = 1 := by
  rw [Char.utf8Size_eq_one_iff, UInt32.le_iff_toNat_le]
  exact Nat.le_of_lt_succ hc

/-- A character of ASCII is one byte. -/
theorem encode_ascii (hc : c.toNat < 0x80) :
    (String.utf8EncodeChar c).map CodeUnit.ofByte = [.ascii c] := by
  have hbyte : c.val.toUInt8.toNat = c.toNat := by
    rw [UInt32.toNat_toUInt8]
    exact Nat.mod_eq_of_lt (by have := hc; simp only [Char.toNat] at this; omega)
  rw [String.utf8EncodeChar_eq_singleton (utf8Size_eq_one hc), List.map_singleton, CodeUnit.ofByte,
    hbyte, if_pos hc, Char.ofNat_toNat]

/-- Every byte of a longer character is known for one. -/
theorem encode_part (hc : ¬c.toNat < 0x80) :
    ∀ u ∈ (String.utf8EncodeChar c).map CodeUnit.ofByte, u = .part := by
  have hpart {n : Nat} (hlow : 128 ≤ n % 256) : CodeUnit.ofByte (UInt8.ofNat n) = .part := by
    have : ¬(UInt8.ofNat n).toNat < 0x80 := by
      rw [UInt8.toNat_ofNat']
      omega
    rw [CodeUnit.ofByte, if_neg this]
  simp only [Char.toNat] at hc
  unfold String.utf8EncodeChar
  dsimp only
  rw [if_neg (by omega)]
  split_ifs
  · simp only [List.map_cons, List.map_nil, List.forall_mem_cons]
    exact ⟨hpart (by omega), hpart (by omega), by simp⟩
  · simp only [List.map_cons, List.map_nil, List.forall_mem_cons]
    exact ⟨hpart (by omega), hpart (by omega), hpart (by omega), by simp⟩
  · simp only [List.map_cons, List.map_nil, List.forall_mem_cons]
    exact ⟨hpart (by omega), hpart (by omega), hpart (by omega), hpart (by omega), by simp⟩

/-! ### Bytes at a place -/

/-- There is no byte at an offset when the text ends before it. -/
theorem unitAt_eq_none_iff : unitAt source pos = none ↔ byteLength source ≤ pos := by
  rw [unitAt, Option.map_eq_none_iff, List.getElem?_eq_none_iff, length_utf8]

/-- A byte of a text stands before its end. -/
theorem lt_byteLength_of_unitAt {u : CodeUnit} (h : unitAt source pos = some u) :
    pos < byteLength source := by
  by_contra hle
  rw [unitAt_eq_none_iff.mpr (by omega)] at h
  cases h

namespace TailAt

/-- Behind the first part of a text its second part stands. -/
theorem append (h : TailAt source pos (t ++ s)) : TailAt source (pos + byteLength t) s := by
  obtain ⟨before, hsource, rfl⟩ := h
  exact ⟨before ++ t, by rw [hsource, List.append_assoc], byteLength_append before t⟩

/-- Behind the first character of a text the others stand. -/
theorem cons (h : TailAt source pos (c :: s)) : TailAt source (pos + c.utf8Size) s :=
  TailAt.append (t := [c]) h

/-- What a text has from an offset on reaches to its end. -/
theorem add_byteLength (h : TailAt source pos s) : pos + byteLength s = byteLength source := by
  obtain ⟨before, rfl, rfl⟩ := h
  exact (byteLength_append before s).symm

/-- Where nothing is left of a text there is no byte. -/
theorem unitAt_nil (h : TailAt source pos []) : unitAt source pos = none := by
  have hend := h.add_byteLength
  rw [unitAt_eq_none_iff, ← hend]
  exact Nat.le_refl _

/-- The bytes from a place on are those of the text there. -/
private theorem unitAt_add (h : TailAt source pos (c :: s)) (hk : k < c.utf8Size) :
    unitAt source (pos + k) = ((String.utf8EncodeChar c).map CodeUnit.ofByte)[k]? := by
  obtain ⟨before, rfl, rfl⟩ := h
  have hlength := String.length_utf8EncodeChar c
  rw [unitAt, utf8, List.flatMap_append, List.flatMap_cons, ← utf8,
    List.getElem?_append_right (by rw [length_utf8]; omega), length_utf8, Nat.add_sub_cancel_left,
    List.getElem?_append_left (by omega), List.getElem?_map]

/-- At a place there is the first byte of the next character. -/
theorem unitAt_cons (h : TailAt source pos (c :: s)) :
    unitAt source pos = some (CodeUnit.ofChar c) := by
  have hunit := h.unitAt_add (Char.utf8Size_pos c)
  rw [Nat.add_zero] at hunit
  rw [hunit, CodeUnit.ofChar]
  by_cases hc : c.toNat < 0x80
  · rw [encode_ascii hc, if_pos hc]
    rfl
  · have hlt : 0 < ((String.utf8EncodeChar c).map CodeUnit.ofByte).length := by
      rw [List.length_map, String.length_utf8EncodeChar]
      exact Char.utf8Size_pos c
    rw [if_neg hc, List.getElem?_eq_getElem hlt,
      encode_part hc _ (List.getElem_mem hlt)]

/-- Inside of a character there are only its parts. -/
private theorem unitAt_inside (h : TailAt source pos (c :: s)) (hpos : 0 < k)
    (hk : k < c.utf8Size) : unitAt source (pos + k) = some .part := by
  have hc : ¬c.toNat < 0x80 := by
    intro hc
    rw [utf8Size_eq_one hc] at hk
    omega
  have hlt : k < ((String.utf8EncodeChar c).map CodeUnit.ofByte).length := by
    rw [List.length_map, String.length_utf8EncodeChar]
    exact hk
  rw [h.unitAt_add hk, List.getElem?_eq_getElem hlt, encode_part hc _ (List.getElem_mem hlt)]

/-- What does not change on the way over a part does not change between the first byte of a
character and its end. -/
theorem pass {α : Type} {f : Nat → α} (hf : ∀ p, unitAt source p = some .part → f p = f (p + 1))
    (h : TailAt source pos (c :: s)) : f (pos + 1) = f (pos + c.utf8Size) := by
  have hover : ∀ k, 0 < k → k ≤ c.utf8Size → f (pos + 1) = f (pos + k) := by
    intro k hpos hk
    induction k with
    | zero => omega
    | succ k ih =>
      rcases Nat.eq_zero_or_pos k with rfl | hpos'
      · rfl
      · rw [ih hpos' (by omega), hf _ (h.unitAt_inside hpos' (by omega))]
        rfl
  exact hover _ (Char.utf8Size_pos c) (Nat.le_refl _)

/-- Whether a character of ASCII stands at a place can be seen from one byte. -/
theorem unitAt_eq_ascii_iff (h : TailAt source pos s) {d : Char} (hd : d.toNat < 0x80) :
    unitAt source pos = some (.ascii d) ↔ s.head? = some d := by
  cases s with
  | nil => simp [h.unitAt_nil]
  | cons c s =>
    rw [h.unitAt_cons, List.head?_cons, Option.some.injEq, Option.some.injEq, CodeUnit.ofChar]
    split
    · rw [CodeUnit.ascii.injEq]
    · next hc =>
      constructor
      · intro h
        cases h
      · rintro rfl
        exact absurd hd hc

/-! ### Pieces -/

/-- The text from an offset on is found there. -/
theorem tailFrom?_eq (h : TailAt source pos s) : tailFrom? pos source = some s := by
  obtain ⟨before, rfl, rfl⟩ := h
  induction before with
  | nil => cases s <;> rfl
  | cons c before ih =>
    have hpos := Char.utf8Size_pos c
    rw [byteLength, List.cons_append, tailFrom?, if_neg (by omega), if_pos (by omega),
      Nat.add_sub_cancel_left, ih]

/-- What stands at a place can be cut out. -/
theorem slice?_eq (h : TailAt source pos (t ++ s)) :
    slice? source pos (pos + byteLength t) = some t := by
  rw [slice?, if_pos (Nat.le_add_right _ _), h.tailFrom?_eq, Option.bind_some,
    Nat.add_sub_cancel_left, takeBytes?_append]

end TailAt

end Reclass.Text
