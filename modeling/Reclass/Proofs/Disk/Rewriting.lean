import Reclass.Disk
import Reclass.Proofs.Outcome
import Mathlib.Data.List.Basic

/-!
# Paths on rewritten disks

Writing into files moves nothing. On a disk whose files hold other bytes every path leads where it
led before, or fails for the same reason. Where files have been added as well, a path that led
somewhere still leads there.
-/

namespace Reclass

/-- What may be found at a location after files have been written: a file may hold other bytes, and
with `grows` there may be a file where nothing was. -/
inductive Node.Rewritten (grows : Prop) : Option Node → Option Node → Prop
  | same (node : Option Node) : Rewritten grows node node
  | file (old new : Content) : Rewritten grows (some (.file old)) (some (.file new))
  | added (h : grows) (new : Content) : Rewritten grows none (some (.file new))

namespace Node.Rewritten

variable {grows : Prop} {old new : Option Node}

/-- A file may be given other bytes once more. -/
theorem again {before : Content} (h : Rewritten grows old (some (.file before)))
    (content : Content) : Rewritten grows old (some (.file content)) := by
  cases h with
  | same => exact .file before content
  | file before => exact .file before content
  | added hgrows => exact .added hgrows content

/-- Where only files have other bytes, files may as well have been added. -/
theorem grow (h : Rewritten False old new) : Rewritten True old new := by
  cases h with
  | same => exact .same old
  | file old new => exact .file old new
  | added hgrows => exact hgrows.elim

/-- Where nothing is, nothing was. -/
theorem eq_none (h : Rewritten grows old none) : old = none := by
  cases h
  rfl

/-- A directory stays one, and nothing becomes one. -/
theorem eq_directory_iff (h : Rewritten grows old new) :
    new = some .directory ↔ old = some .directory := by
  cases h <;> simp

end Node.Rewritten

namespace Disk

/-- That a disk is what another one has become by the writing of files. With `grows`, some of the
files may be new. -/
structure Rewritten (grows : Prop) (old new : Disk) : Prop where
  workingDirectory : new.workingDirectory = old.workingDirectory
  node? : ∀ location, Node.Rewritten grows (old.node? location) (new.node? location)

variable {grows : Prop} {old new disk : Disk} {location : Location}

/-! ### What is put at a location -/

private theorem lookup_filter_ne (entries : List (Location × Node)) (location other : Location) :
    (entries.filter (·.1 ≠ location)).lookup other =
      if other = location then none else entries.lookup other := by
  induction entries with
  | nil => simp
  | cons entry entries ih =>
    obtain ⟨place, node⟩ := entry
    by_cases hplace : place = location
    · rw [List.filter_cons_of_neg (by simp [hplace]), ih, List.lookup_cons]
      split
      · rfl
      · next hother => rw [beq_false_of_ne (hplace ▸ hother)]
    · rw [List.filter_cons_of_pos (by simp [hplace]), List.lookup_cons, List.lookup_cons, ih]
      by_cases hother : other = place
      · simp [hother, hplace]
      · simp [beq_false_of_ne hother]

/-- What is put at a location is there, and everything else is where it was. -/
theorem node?_put (disk : Disk) {location : Location} (hroot : location ≠ []) (node : Node)
    (other : Location) :
    (disk.put location node).node? other =
      if other = location then some node else disk.node? other := by
  cases other with
  | nil => rw [if_neg hroot.symm]; rfl
  | cons name rest =>
    simp only [Disk.node?, put, List.lookup_cons, lookup_filter_ne]
    by_cases h : name :: rest = location
    · simp [h]
    · simp [h, beq_false_of_ne h]

/-- Where a file is, or nothing, is not the root. -/
theorem ne_nil_of_node?_ne (disk : Disk) (h : disk.node? location ≠ some .directory) :
    location ≠ [] := by
  rintro rfl
  exact h rfl

/-! ### Rewritten disks -/

/-- A disk has become what it is by the writing of no files. -/
theorem Rewritten.refl (disk : Disk) : Rewritten grows disk disk := ⟨rfl, fun _ => .same _⟩

/-- A file that is there may be given other bytes, and, with `grows`, one may be put where nothing
is. -/
theorem Rewritten.put (h : Rewritten grows old new) {content : Content}
    (hfree : (∃ before, new.node? location = some (.file before)) ∨
      grows ∧ new.node? location = none) :
    Rewritten grows old (new.put location (.file content)) := by
  have hroot : location ≠ [] := by
    refine ne_nil_of_node?_ne new ?_
    rcases hfree with ⟨before, hfile⟩ | ⟨_, hnone⟩
    · simp [hfile]
    · simp [hnone]
  refine ⟨h.workingDirectory, fun other => ?_⟩
  rw [node?_put new hroot]
  split
  · next heq =>
    subst heq
    have hother := h.node? other
    rcases hfree with ⟨before, hfile⟩ | ⟨hgrows, hnone⟩
    · rw [hfile] at hother
      exact hother.again content
    · rw [hnone] at hother
      rw [hother.eq_none]
      exact .added hgrows content
  · exact h.node? other

/-! ### Where paths lead -/

/-- How two walks along the same names may end on a disk and on what it has become. Beyond what was
the end of the first one, the second one finds at most a file that is asked to be a directory. -/
inductive WalkRewritten (grows : Prop) :
    Except IoFault Destination → Except IoFault Destination → Prop
  | arrived (location : Location) {old new : Option Node} (h : Node.Rewritten grows old new)
      (asDirectory : Bool) :
      WalkRewritten grows (.ok ⟨location, old, asDirectory⟩) (.ok ⟨location, new, asDirectory⟩)
  | failed (fault : IoFault) : WalkRewritten grows (.error fault) (.error fault)
  | failedLater (h : grows) (fault fault' : IoFault) :
      WalkRewritten grows (.error fault) (.error fault')
  | beyond (h : grows) (fault : IoFault) (location : Location) (content : Content) :
      WalkRewritten grows (.error fault) (.ok ⟨location, some (.file content), true⟩)

/-- From a file no name leads on; only a slash can follow. -/
private theorem walkWith_file (follow : Location → List String → Except IoFault Destination)
    {content : Content} (hfile : disk.node? location = some (.file content)) {names : List String}
    (hnames : names ≠ []) :
    walkWith disk follow location names = .ok ⟨location, some (.file content), true⟩ ∨
      ∃ fault, walkWith disk follow location names = .error fault := by
  induction names with
  | nil => exact absurd rfl hnames
  | cons name rest ih =>
    rw [walkWith]
    by_cases hname : name = ""
    · rw [if_pos hname]
      by_cases hrest : rest = []
      · rw [if_pos hrest, hfile]
        exact .inl rfl
      · rw [if_neg hrest]
        exact ih hrest
    · rw [if_neg hname, if_pos (by simp [hfile])]
      exact .inr ⟨_, rfl⟩

private theorem walkWith_rewritten (h : Rewritten grows old new)
    {follow follow' : Location → List String → Except IoFault Destination}
    (hfollow : ∀ location names,
      WalkRewritten grows (follow location names) (follow' location names))
    (location : Location) (names : List String) :
    WalkRewritten grows (walkWith old follow location names)
      (walkWith new follow' location names) := by
  induction names generalizing location with
  | nil => exact .arrived location (h.node? location) false
  | cons name rest ih =>
    rw [walkWith, walkWith]
    by_cases hname : name = ""
    · rw [if_pos hname, if_pos hname]
      by_cases hrest : rest = []
      · rw [if_pos hrest, if_pos hrest]
        exact .arrived location (h.node? location) true
      · rw [if_neg hrest, if_neg hrest]
        exact ih location
    rw [if_neg hname, if_neg hname]
    by_cases hdirectory : old.node? location = some .directory
    swap
    · have hdirectory' : new.node? location ≠ some .directory := fun heq =>
        hdirectory ((h.node? location).eq_directory_iff.mp heq)
      rw [if_pos hdirectory, if_pos hdirectory']
      exact .failed _
    rw [if_neg (not_not.mpr hdirectory),
      if_neg (not_not.mpr ((h.node? location).eq_directory_iff.mpr hdirectory))]
    by_cases hpoint : name = "."
    · rw [if_pos hpoint, if_pos hpoint]
      exact ih location
    rw [if_neg hpoint, if_neg hpoint]
    by_cases hparent : name = ".."
    · rw [if_pos hparent, if_pos hparent]
      exact ih location.tail
    rw [if_neg hparent, if_neg hparent]
    have hnode := h.node? (name :: location)
    generalize hold : old.node? (name :: location) = before at hnode
    generalize hnew : new.node? (name :: location) = after at hnode
    cases hnode with
    | same =>
      match before with
      | some (.link target) => exact hfollow _ _
      | some .directory => exact ih _
      | some (.file content) => exact ih _
      | none =>
        split_ifs
        · exact .arrived _ (.same none) false
        · exact .arrived _ (.same none) true
        · exact .failed _
    | file content content' => exact ih _
    | added hgrows content =>
      -- the walk stops here on the old disk, and goes on from a file on the new one
      dsimp only
      split_ifs with hrest hslash
      · subst hrest
        rw [walkWith, hnew]
        exact .arrived _ (.added hgrows content) false
      · subst hslash
        rw [walkWith, if_pos rfl, if_pos rfl, hnew]
        exact .arrived _ (.added hgrows content) true
      · rcases walkWith_file follow' hnew hrest with hend | ⟨fault, hend⟩
        · rw [hend]
          exact .beyond hgrows _ _ content
        · rw [hend]
          exact .failedLater hgrows _ fault

private theorem walk_rewritten (h : Rewritten grows old new) (links : Nat) (location : Location)
    (names : List String) :
    WalkRewritten grows (walk old links location names) (walk new links location names) := by
  induction links generalizing location names with
  | zero => exact walkWith_rewritten h (fun _ _ => .failed _) location names
  | succ links ih => exact walkWith_rewritten h ih location names

/-- A path leads to the same place as before. -/
theorem locate_rewritten (h : Rewritten grows old new) (path : Path) :
    WalkRewritten grows (old.locate path) (new.locate path) := by
  rw [locate, locate, h.workingDirectory]
  split
  · exact .failed _
  · exact walk_rewritten h maxLinks _ path.steps

/-- What a path stands for is what it leads to, where that is what it asks for. -/
theorem resolve_eq_ok_iff {path : Path} {node : Node} :
    disk.resolve path = .ok (location, node) ↔
      ∃ asDirectory, disk.locate path = .ok ⟨location, some node, asDirectory⟩ ∧
        (node = .directory ∨ asDirectory = false) := by
  rw [resolve, Except.bind_eq_ok_iff]
  constructor
  · rintro ⟨⟨place, node?, asDirectory⟩, hlocate, h⟩
    dsimp only at h
    split at h
    · exact absurd h (by simp [throw, throwThe, MonadExceptOf.throw])
    · cases h
      exact ⟨asDirectory, hlocate, .inl rfl⟩
    · split at h
      · exact absurd h (by simp [throw, throwThe, MonadExceptOf.throw])
      · next hslash =>
        cases h
        exact ⟨asDirectory, hlocate, .inr (by simpa using hslash)⟩
  · rintro ⟨asDirectory, hlocate, h⟩
    refine ⟨_, hlocate, ?_⟩
    rcases h with rfl | rfl
    · rfl
    · cases node <;> rfl

/-- What a path stands for it still stands for; a file may hold other bytes. -/
theorem Rewritten.resolve_eq_ok (h : Rewritten grows old new) {path : Path} {node : Node}
    (hold : old.resolve path = .ok (location, node)) :
    ∃ node', new.resolve path = .ok (location, node') ∧
      Node.Rewritten grows (some node) (some node') := by
  obtain ⟨asDirectory, hlocate, hnode⟩ := resolve_eq_ok_iff.mp hold
  have hwalk := locate_rewritten h path
  rw [hlocate] at hwalk
  generalize hnew : new.locate path = walked at hwalk
  cases hwalk with
  | arrived _ hrewritten =>
    rename_i node'
    cases hrewritten with
    | same => exact ⟨node, resolve_eq_ok_iff.mpr ⟨asDirectory, hnew, hnode⟩, .same _⟩
    | file before content =>
      have hfile : asDirectory = false := by simpa using hnode
      exact ⟨.file content, resolve_eq_ok_iff.mpr ⟨asDirectory, hnew, .inr hfile⟩,
        .file before content⟩

/-- Where no file is new, a path that stood for nothing fails for the same reason as before. -/
theorem Rewritten.resolve_eq_error (h : Rewritten False old new) {path : Path} {fault : IoFault}
    (hold : old.resolve path = .error fault) : new.resolve path = .error fault := by
  have hwalk := locate_rewritten h path
  rw [resolve] at hold ⊢
  generalize old.locate path = before at hwalk hold
  generalize new.locate path = after at hwalk
  cases hwalk with
  | arrived place hrewritten asDirectory =>
    cases hrewritten with
    | same => exact hold
    | file =>
      cases asDirectory with
      | false => exact absurd hold (by simp [bind, Except.bind, pure, Except.pure])
      | true => exact hold
    | added hgrows => exact hgrows.elim
  | failed => exact hold
  | failedLater hgrows => exact hgrows.elim
  | beyond hgrows => exact hgrows.elim

/-- A path can be written to exactly when it could be before, and at the same place. -/
theorem Rewritten.writeLocation_toOption (h : Rewritten grows old new) (path : Path) :
    (new.writeLocation path).toOption = (old.writeLocation path).toOption := by
  have hwalk := locate_rewritten h path
  rw [writeLocation, writeLocation]
  generalize old.locate path = before at hwalk
  generalize new.locate path = after at hwalk
  cases hwalk with
  | arrived place hrewritten asDirectory =>
    cases hrewritten with
    | same => rfl
    | file => cases asDirectory <;> rfl
    | added => cases asDirectory <;> rfl
  | failed => rfl
  | failedLater => rfl
  | beyond => rfl

/-! ### What is found where a path leads -/

/-- That every entry of a disk is inside a directory, and so is the start of relative paths. -/
def WellFormed (disk : Disk) : Prop :=
  disk.node? disk.workingDirectory = some .directory ∧
    ∀ entry ∈ disk.entries, disk.node? entry.1.tail = some .directory

instance (disk : Disk) : Decidable disk.WellFormed :=
  inferInstanceAs (Decidable (_ ∧ _))

/-- On a well-formed disk the place above a directory is a directory. -/
theorem WellFormed.tail (h : disk.WellFormed) (hnode : disk.node? location = some .directory) :
    disk.node? location.tail = some .directory := by
  cases location with
  | nil => rfl
  | cons name rest =>
    obtain ⟨before, after, hentries, _⟩ := List.lookup_eq_some_iff.mp hnode
    exact h.2 (name :: rest, .directory) (by simp [hentries])

/-- That a walk from a location has ended at what is there. On a well-formed disk, where the walk
starts at no link, it ends at none. -/
private def Arrives (disk : Disk) (start : Location) (walked : Except IoFault Destination) : Prop :=
  ∀ destination, walked = .ok destination →
    destination.node = disk.node? destination.location ∧
      (disk.WellFormed → (∀ target, disk.node? start ≠ some (.link target)) →
        ∀ target, destination.node ≠ some (.link target))

private theorem arrives_error (start : Location) (fault : IoFault) :
    disk.Arrives start (.error fault) := by
  intro destination h
  cases h

private theorem arrives_here (location : Location) (asDirectory : Bool) :
    disk.Arrives location (.ok ⟨location, disk.node? location, asDirectory⟩) := by
  rintro destination h
  cases h
  exact ⟨rfl, fun _ hstart => hstart⟩

private theorem Arrives.from {start start' : Location} {walked : Except IoFault Destination}
    (h : disk.Arrives start' walked)
    (hstart : disk.WellFormed → (∀ target, disk.node? start ≠ some (.link target)) →
      ∀ target, disk.node? start' ≠ some (.link target)) :
    disk.Arrives start walked := by
  intro destination hwalked
  obtain ⟨hnode, hlink⟩ := h destination hwalked
  exact ⟨hnode, fun hwell hno => hlink hwell (hstart hwell hno)⟩

private theorem walkWith_arrives {follow : Location → List String → Except IoFault Destination}
    (hfollow : ∀ location names, disk.Arrives location (follow location names))
    (location : Location) (names : List String) :
    disk.Arrives location (walkWith disk follow location names) := by
  induction names generalizing location with
  | nil => exact arrives_here location false
  | cons name rest ih =>
    rw [walkWith]
    by_cases hname : name = ""
    · rw [if_pos hname]
      split
      · exact arrives_here location true
      · exact ih location
    rw [if_neg hname]
    by_cases hdirectory : disk.node? location = some .directory
    swap
    · rw [if_pos hdirectory]
      exact arrives_error location _
    rw [if_neg (not_not.mpr hdirectory)]
    by_cases hpoint : name = "."
    · rw [if_pos hpoint]
      exact ih location
    rw [if_neg hpoint]
    by_cases hparent : name = ".."
    · rw [if_pos hparent]
      refine (ih location.tail).from fun hwell _ target => ?_
      simp [hwell.tail hdirectory]
    rw [if_neg hparent]
    split
    · next target hnode =>
      refine (hfollow _ _).from fun _ hstart => ?_
      split
      · simp [Disk.node?]
      · exact hstart
    · next node hlink hnode =>
      refine (ih _).from fun _ _ target heq => ?_
      rw [hnode] at heq
      exact hlink target (Option.some.inj heq)
    · next hnode =>
      have hhere (asDirectory : Bool) :
          disk.Arrives location (.ok ⟨name :: location, none, asDirectory⟩) := by
        rw [← hnode]
        exact (arrives_here _ asDirectory).from fun _ _ => by simp [hnode]
      split
      · exact hhere false
      · split
        · exact hhere true
        · exact arrives_error location _

private theorem walk_arrives (links : Nat) (location : Location) (names : List String) :
    disk.Arrives location (walk disk links location names) := by
  induction links generalizing location names with
  | zero => exact walkWith_arrives (fun _ _ => arrives_error _ _) location names
  | succ links ih => exact walkWith_arrives ih location names

/-- A path leads to what is at the place where it leads. -/
theorem node_of_locate {path : Path} {destination : Destination}
    (h : disk.locate path = .ok destination) :
    destination.node = disk.node? destination.location := by
  rw [locate] at h
  split at h
  · cases h
  · exact (walk_arrives _ _ _ destination h).1

/-- On a well-formed disk no path leads to a link: links are followed. -/
theorem WellFormed.node_ne_link (hdisk : disk.WellFormed) {path : Path} {destination : Destination}
    (h : disk.locate path = .ok destination) (target : Path) :
    destination.node ≠ some (.link target) := by
  rw [locate] at h
  split at h
  · cases h
  · refine (walk_arrives _ _ _ destination h).2 hdisk (fun target => ?_) target
    split
    · simp [Disk.node?]
    · simp [hdisk.1]

/-- What a path stands for is at the place for which it stands. -/
theorem node?_of_resolve {path : Path} {node : Node}
    (h : disk.resolve path = .ok (location, node)) : disk.node? location = some node := by
  obtain ⟨asDirectory, hlocate, _⟩ := resolve_eq_ok_iff.mp h
  exact (node_of_locate hlocate).symm

/-- On a well-formed disk, where a path can be written to there is a file, or nothing. -/
theorem WellFormed.node?_writeLocation (hdisk : disk.WellFormed) {path : Path}
    (h : disk.writeLocation path = .ok location) :
    disk.node? location = none ∨ ∃ content, disk.node? location = some (.file content) := by
  obtain ⟨destination, hlocate, h⟩ := Except.bind_eq_ok_iff.mp h
  have hlink := hdisk.node_ne_link hlocate
  have hnode := node_of_locate hlocate
  split at h
  · cases h
  · next hfree =>
    cases h
    rw [← hnode]
    match hfound : destination.node with
    | none => exact .inl rfl
    | some (.file content) => exact .inr ⟨content, rfl⟩
    | some (.link target) => exact absurd hfound (hlink target)
    | some .directory => exact absurd (.inr hfound) hfree

end Disk

end Reclass
