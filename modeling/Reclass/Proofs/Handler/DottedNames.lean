import Reclass.Identity
import Mathlib.Data.List.Basic
import Mathlib.Data.List.DropRight

/-!
# Dotted names read and written

A dotted name is written down as the text that it was read from, without the white space around
it. The class of a handler joins the words of the last segment, so that it keeps no underscore and
does not depend on how many of them stand between two words.
-/

namespace Reclass

namespace Text

/-- Nothing but white space. -/
def IsBlank (s : List Char) : Prop := ∀ c ∈ s, isWhiteSpace c = true

/-- What is left after trimming starts with no white space. -/
private theorem trimLeft_trim (s : List Char) : trimLeft (trim s) = trim s := by
  have hinitial : trim s <+: trimLeft s := List.rdropWhile_prefix isWhiteSpace (trimLeft s)
  refine List.dropWhile_eq_self_iff.mpr fun hpos => ?_
  rw [hinitial.getElem hpos]
  exact List.dropWhile_get_zero_not _ s (hpos.trans_le hinitial.length_le)

/-- Trimming once is enough. -/
theorem trim_trim (s : List Char) : trim (trim s) = trim s := by
  have hright : (trim s).rdropWhile isWhiteSpace = trim s := List.rdropWhile_idempotent _ _
  calc trim (trim s) = (trimLeft (trim s)).rdropWhile isWhiteSpace := rfl
    _ = trim s := by rw [trimLeft_trim, hright]

/-- Joining parts with a separator is putting it between them. -/
theorem join_eq_intercalate (sep : Char) (parts : List (List Char)) :
    join sep parts = [sep].intercalate parts := by
  induction parts with
  | nil => rfl
  | cons part rest ih =>
    cases rest with
    | nil => simp [join]
    | cons next rest => simp [join, ih, List.intercalate_cons_cons]

/-- Joined texts, as the library joins them. -/
theorem ofList_join (sep : Char) (parts : List String) :
    String.ofList (join sep (parts.map String.toList)) =
      (String.singleton sep).intercalate parts := by
  rw [← String.toList_inj, String.toList_ofList, String.toList_intercalate, join_eq_intercalate,
    String.toList_singleton]

private theorem eq_of_ofNat_eq_underscore {n : Nat} (h : Char.ofNat n = '_') : n = 0x5f := by
  by_cases hvalid : n.isValidChar
  · rw [Char.ofNat, dif_pos hvalid] at h
    calc n = (Char.ofNatAux n hvalid).toNat := rfl
      _ = 0x5f := congrArg Char.toNat h
  · rw [Char.ofNat, dif_neg hvalid] at h
    exact absurd h (by decide)

/-- Only the underscore has an underscore in its upper case. -/
theorem eq_underscore_of_mem_upperCase {c : Char} (h : '_' ∈ upperCase c) : c = '_' := by
  have hsequences : ∀ entry ∈ upperSequences, '_' ∉ entry.2.map Char.ofNat := by decide
  -- The images of a run are neighbours, and none of them is the code point of the underscore.
  have hruns : ∀ entry ∈ upperRuns,
      entry.2.2.2 + (entry.2.1 - entry.1) < 0x5f ∨ 0x5f < entry.2.2.2 := by decide +kernel
  rw [upperCase] at h
  split at h
  · next hfind => exact absurd h (hsequences _ (List.mem_of_find?_eq_some hfind))
  · split at h
    · next first last step target hfind =>
      have hin := List.find?_some hfind
      have hcode := eq_of_ofNat_eq_underscore (List.mem_singleton.mp h).symm
      have hrun := hruns _ (List.mem_of_find?_eq_some hfind)
      simp only [Bool.and_eq_true, decide_eq_true_eq] at hin hrun
      omega
    · exact (List.mem_singleton.mp h).symm

end Text

/-- The words of a segment: what stands between its underscores, where that is not empty. -/
def wordsOf (leaf : List Char) : List (List Char) :=
  (Text.fields '_' leaf).filter (· ≠ [])

/-- A word with its first letter in upper case. -/
def capitalize : List Char → List Char
  | [] => []
  | c :: word => Text.upperCase c ++ word

private theorem classStem_eq_flatMap (leaf : List Char) :
    classStem leaf = (Text.fields '_' leaf).flatMap capitalize := by
  rw [classStem]
  congr 1

/-- The stem of a class name is its words, each with a capital letter at the front. -/
theorem classStem_eq (leaf : List Char) : classStem leaf = (wordsOf leaf).flatMap capitalize := by
  rw [classStem_eq_flatMap, wordsOf]
  induction Text.fields '_' leaf with
  | nil => rfl
  | cons field rest ih =>
    cases field with
    | nil => simpa [capitalize] using ih
    | cons c word => simp [ih]

/-- Two parts with an underscore between them give their stems one after the other. -/
theorem classStem_append (x y : List Char) :
    classStem (x ++ '_' :: y) = classStem x ++ classStem y := by
  simp only [classStem_eq_flatMap, Text.fields_append, List.flatMap_append]

/-- The words joined have no underscore. -/
theorem underscore_notMem_classStem (leaf : List Char) : '_' ∉ classStem leaf := by
  intro h
  rw [classStem_eq_flatMap] at h
  obtain ⟨field, hfield, h⟩ := List.mem_flatMap.mp h
  have hnone := Text.notMem_of_mem_fields hfield
  cases field with
  | nil => exact absurd h List.not_mem_nil
  | cons c word =>
    obtain h | h := List.mem_append.mp h
    · exact hnone (Text.eq_underscore_of_mem_upperCase h ▸ List.mem_cons_self)
    · exact hnone (List.mem_cons_of_mem _ h)

/-- The suffix of no kind has an underscore. -/
theorem underscore_notMem_suffix (kind : HandlerKind) : '_' ∉ kind.suffix.toList := by
  cases kind <;> decide

namespace DottedName

variable {s : String} {name : DottedName} {kind : HandlerKind} {identity : Identity}

/-- A name from its segments has just these segments. -/
private theorem mk_eq_iff {segments : List (List Char)} (hne : segments ≠ []) :
    (⟨segments.dropLast.map String.ofList, String.ofList (segments.getLast?.getD [])⟩ :
        DottedName) = name ↔
      segments = (name.packages ++ [name.leaf]).map String.toList := by
  obtain ⟨packages, leaf, rfl⟩ := (List.eq_nil_or_concat segments).resolve_left hne
  rw [List.concat_eq_append, List.dropLast_concat, List.getLast?_concat, Option.getD_some]
  constructor
  · rintro rfl
    simp [Function.comp_def]
  · intro h
    rw [List.map_append, List.map_singleton] at h
    obtain ⟨rfl, hleaf⟩ := List.append_inj' h rfl
    obtain rfl := List.singleton_inj.mp hleaf
    simp [Function.comp_def]

/-- A name is read from a text that is not blank and has no blank segment, and it holds the
segments. -/
theorem parse_eq_ok_iff : parse s = .ok name ↔
    Text.trim s.toList ≠ [] ∧
      (∀ segment ∈ Text.fields '.' (Text.trim s.toList), ¬ Text.IsBlank segment) ∧
      Text.fields '.' (Text.trim s.toList) = (name.packages ++ [name.leaf]).map String.toList := by
  have hblank : (Text.fields '.' (Text.trim s.toList)).any (·.all Text.isWhiteSpace) = true ↔
      ¬ ∀ segment ∈ Text.fields '.' (Text.trim s.toList), ¬ Text.IsBlank segment := by
    simp [Text.IsBlank]
  simp only [parse, List.isEmpty_iff]
  by_cases hempty : Text.trim s.toList = []
  · simp [hempty]
  · by_cases hsegments : ∀ segment ∈ Text.fields '.' (Text.trim s.toList), ¬ Text.IsBlank segment
    · rw [if_neg hempty, if_neg fun hany => hblank.mp hany hsegments, Except.ok.injEq,
        mk_eq_iff (Text.fields_ne_nil _ _)]
      exact ⟨fun h => ⟨hempty, hsegments, h⟩, fun h => h.2.2⟩
    · rw [if_neg hempty, if_pos (hblank.mpr hsegments)]
      exact ⟨nofun, fun h => absurd h.2.1 hsegments⟩

/-- The name in a text, written down, is the text without the white space around it. -/
theorem text_of_parse (h : parse s = .ok name) :
    name.text = String.ofList (Text.trim s.toList) := by
  obtain ⟨_, _, hsegments⟩ := parse_eq_ok_iff.mp h
  rw [text, ← hsegments, Text.join_fields]

/-- The name that was written down is read again. -/
theorem parse_text (h : parse s = .ok name) : parse name.text = .ok name := by
  have htrim : Text.trim name.text.toList = Text.trim s.toList := by
    rw [text_of_parse h, String.toList_ofList, Text.trim_trim]
  rw [parse_eq_ok_iff, htrim]
  exact parse_eq_ok_iff.mp h

/-- The identity of a name: a valid class name that is more than the suffix, below the packages. -/
theorem identity_eq_ok_iff : name.identity kind = .ok identity ↔
    Script.isName identity.className.toList = true ∧
      classStem name.leaf.toList ≠ [] ∧
      identity.className = String.ofList (classStem name.leaf.toList) ++ kind.suffix ∧
      identity.modulePath = "/".intercalate (name.packages ++ [identity.className]) := by
  have hsuffix : (String.ofList (classStem name.leaf.toList) ++ kind.suffix != kind.suffix) = true ↔
      classStem name.leaf.toList ≠ [] := by
    rw [bne_iff_ne, ne_eq, String.append_eq_right_iff, String.ofList_eq_empty_iff]
  have hpath : String.ofList (Text.join '/' ((name.packages ++
        [String.ofList (classStem name.leaf.toList) ++ kind.suffix]).map String.toList)) =
      "/".intercalate (name.packages ++
        [String.ofList (classStem name.leaf.toList) ++ kind.suffix]) := Text.ofList_join '/' _
  simp only [DottedName.identity, hpath]
  split
  · next hif =>
    rw [Bool.and_eq_true, hsuffix] at hif
    rw [Except.ok.injEq]
    constructor
    · rintro rfl
      exact ⟨hif.1, hif.2, rfl, rfl⟩
    · rintro ⟨_, _, hclass, hmodule⟩
      obtain ⟨modulePath, className⟩ := identity
      subst hclass
      dsimp only at hmodule
      rw [hmodule]
  · next hif =>
    rw [Bool.and_eq_true, hsuffix] at hif
    refine ⟨nofun, ?_⟩
    rintro ⟨hvalid, hstem, hclass, _⟩
    exact absurd ⟨hclass ▸ hvalid, hstem⟩ hif

/-- A dotted name is read exactly from a text that is not blank and has no blank segment. Written
down it is the text without the white space around it, and that is read as the same name. Its class
has a name without underscores that goes on before the suffix of the kind, depends on the words of
the last segment alone, and lies in the module below the packages. -/
theorem parse_prints_back (s : String) :
    ((∃ name, parse s = .ok name) ↔ Text.trim s.toList ≠ [] ∧
      ∀ segment ∈ Text.fields '.' (Text.trim s.toList), ¬ Text.IsBlank segment) ∧
    (∀ name, parse s = .ok name →
      name.text = String.ofList (Text.trim s.toList) ∧ parse name.text = .ok name ∧
      ∀ kind identity, name.identity kind = .ok identity →
        '_' ∉ identity.className.toList ∧
        kind.suffix.length < identity.className.length ∧
        identity.className = String.ofList (classStem name.leaf.toList) ++ kind.suffix ∧
        (∀ other : DottedName, wordsOf other.leaf.toList = wordsOf name.leaf.toList →
          ∃ like, other.identity kind = .ok like ∧ like.className = identity.className) ∧
        identity.modulePath = "/".intercalate (name.packages ++ [identity.className])) ∧
    ∀ x y, classStem (x ++ '_' :: y) = classStem x ++ classStem y := by
  refine ⟨?_, ?_, classStem_append⟩
  · constructor
    · rintro ⟨name, hname⟩
      obtain ⟨hne, hsegments, _⟩ := parse_eq_ok_iff.mp hname
      exact ⟨hne, hsegments⟩
    · rintro ⟨hne, hsegments⟩
      exact ⟨_, parse_eq_ok_iff.mpr ⟨hne, hsegments, (mk_eq_iff (Text.fields_ne_nil _ _)).mp rfl⟩⟩
  · intro name hname
    refine ⟨text_of_parse hname, parse_text hname, fun kind identity hidentity => ?_⟩
    obtain ⟨hvalid, hstem, hclass, hpath⟩ := identity_eq_ok_iff.mp hidentity
    refine ⟨?_, ?_, hclass, fun other hwords => ?_, hpath⟩
    · rw [hclass, String.toList_append, String.toList_ofList, List.mem_append, not_or]
      exact ⟨underscore_notMem_classStem _, underscore_notMem_suffix kind⟩
    · have hlength := List.length_pos_iff.mpr hstem
      rw [hclass, String.length_append, String.length_ofList]
      omega
    · have hother : classStem other.leaf.toList = classStem name.leaf.toList := by
        rw [classStem_eq, classStem_eq, hwords]
      rw [← hother] at hstem hclass
      let like : Identity :=
        ⟨"/".intercalate (other.packages ++ [identity.className]), identity.className⟩
      exact ⟨like, identity_eq_ok_iff.mpr ⟨hvalid, hstem, hclass, rfl⟩, rfl⟩

/-- Spaces around a name and more underscores than it needs leave no trace in its class. -/
theorem parse_prints_back_of_spare_underscores :
    ∃ name identity, parse " orders.view__item_ " = .ok name ∧
      name.identity .load = .ok identity ∧ name.text = "orders.view__item_" ∧
      '_' ∉ identity.className.toList ∧
      ∃ like, (⟨[], "view_item"⟩ : DottedName).identity .load = .ok like ∧
        like.className = identity.className := by
  have hname : parse " orders.view__item_ " = .ok ⟨["orders"], "view__item_"⟩ := by decide
  have hidentity : (⟨["orders"], "view__item_"⟩ : DottedName).identity .load =
      .ok ⟨"orders/ViewItemLoad", "ViewItemLoad"⟩ := by decide
  obtain ⟨_, hread, _⟩ := parse_prints_back " orders.view__item_ "
  obtain ⟨htext, _, hclass⟩ := hread _ hname
  obtain ⟨hunderscore, _, _, hlike, _⟩ := hclass _ _ hidentity
  exact ⟨_, _, hname, hidentity, htext, hunderscore, hlike ⟨[], "view_item"⟩ (by decide)⟩

end DottedName

end Reclass
