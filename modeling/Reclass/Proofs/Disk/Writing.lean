import Reclass.Proofs.Disk.Machines

/-!
# Writing results

What the disk holds after the writing of the result of a conversion. When it succeeds, the file
holds the result, and the place of the backup what the file held before. When it is refused, the
file is as it was, but the backup may have been written. Everything else is as it was.
-/

namespace Reclass

namespace Disk

variable {grows : Prop} {old new disk : Disk} {location place : Location} {path : Path}

/-- The place of the file that a path stands for. -/
def fileLocation? (disk : Disk) (path : Path) : Option Location :=
  match disk.resolve path with
  | .ok (location, .file _) => some location
  | _ => none

/-- A path stands for a file at a location when it resolves to one there. -/
theorem fileLocation?_eq_some_iff :
    disk.fileLocation? path = some location ↔
      ∃ content, disk.resolve path = .ok (location, .file content) := by
  unfold fileLocation?
  split
  · next place content hresolve =>
    rw [hresolve]
    simp
  · next hother =>
    simp only [reduceCtorEq, false_iff]
    rintro ⟨content, hresolve⟩
    exact hother location content hresolve

/-- The bytes of a file are those that are found at its place. -/
theorem read_eq_ok_iff {content : Content} :
    disk.read path = .ok content ↔
      ∃ location, disk.resolve path = .ok (location, .file content) := by
  rw [read, Except.bind_eq_ok_iff]
  constructor
  · rintro ⟨⟨location, node⟩, hresolve, h⟩
    split at h
    · next heq =>
      cases h
      cases heq
      exact ⟨location, hresolve⟩
    · exact absurd h (by simp [throw, throwThe, MonadExceptOf.throw])
  · rintro ⟨location, hresolve⟩
    exact ⟨_, hresolve, rfl⟩

/-- A path that stands for a file reads what is found at the place of that file. -/
theorem read_of_fileLocation? {content : Content} (hfile : disk.fileLocation? path = some location)
    (hnode : disk.node? location = some (.file content)) : disk.read path = .ok content := by
  obtain ⟨content', hresolve⟩ := fileLocation?_eq_some_iff.mp hfile
  have heq := node?_of_resolve hresolve
  rw [hnode] at heq
  cases heq
  exact read_eq_ok_iff.mpr ⟨location, hresolve⟩

/-- Where a path can be written to, it reads what is there. -/
theorem read_of_writeLocation {content : Content} (h : disk.writeLocation path = .ok location)
    (hnode : disk.node? location = some (.file content)) : disk.read path = .ok content := by
  obtain ⟨destination, hlocate, h⟩ := Except.bind_eq_ok_iff.mp h
  have hfound := node_of_locate hlocate
  obtain ⟨place, node, asDirectory⟩ := destination
  split at h
  · cases h
  · next hfree =>
    cases h
    obtain rfl : node = some (.file content) := hfound.trans hnode
    have hslash : asDirectory = false := by simpa using hfree
    exact read_eq_ok_iff.mpr ⟨_, resolve_eq_ok_iff.mpr ⟨asDirectory, hlocate, .inr hslash⟩⟩

/-- A path that reads some bytes stands for a file that holds them. -/
theorem exists_fileLocation? {content : Content} (h : disk.read path = .ok content) :
    ∃ location, disk.fileLocation? path = some location ∧
      disk.node? location = some (.file content) := by
  obtain ⟨location, hresolve⟩ := read_eq_ok_iff.mp h
  exact ⟨location, fileLocation?_eq_some_iff.mpr ⟨content, hresolve⟩, node?_of_resolve hresolve⟩

/-- Where the file of a path is, there is a file. -/
theorem node?_fileLocation? (h : disk.fileLocation? path = some location) :
    ∃ content, disk.node? location = some (.file content) := by
  obtain ⟨content, hresolve⟩ := fileLocation?_eq_some_iff.mp h
  exact ⟨content, node?_of_resolve hresolve⟩

/-- A path that stood for a file stands for it after files have been written. -/
theorem Rewritten.fileLocation? (h : Rewritten grows old new)
    (hold : old.fileLocation? path = some location) : new.fileLocation? path = some location := by
  obtain ⟨content, hresolve⟩ := fileLocation?_eq_some_iff.mp hold
  obtain ⟨node, hnew, hnode⟩ := h.resolve_eq_ok hresolve
  cases hnode with
  | same => exact fileLocation?_eq_some_iff.mpr ⟨content, hnew⟩
  | file _ content' => exact fileLocation?_eq_some_iff.mpr ⟨content', hnew⟩

/-- That a file may be written at a location: there is one, or there is nothing. -/
def IsFree (disk : Disk) (location : Location) : Prop :=
  disk.node? location = none ∨ ∃ content, disk.node? location = some (.file content)

/-- No file may be written at the root. -/
theorem IsFree.ne_nil (h : disk.IsFree location) : location ≠ [] := by
  refine ne_nil_of_node?_ne disk ?_
  rcases h with hnone | ⟨content, hfile⟩
  · simp [hnone]
  · simp [hfile]

/-- Where there is a file, a file may be written. -/
theorem isFree_of_fileLocation? (h : disk.fileLocation? path = some location) :
    disk.IsFree location :=
  .inr (node?_fileLocation? h)

/-- Where a file could be written, one can be written after others have been. -/
theorem Rewritten.isFree (h : Rewritten grows old new) (hfree : old.IsFree location) :
    new.IsFree location := by
  have hnode := h.node? location
  rw [IsFree] at hfree ⊢
  generalize old.node? location = before at hnode hfree
  generalize new.node? location = after at hnode
  cases hnode with
  | same => exact hfree
  | file _ content => exact .inr ⟨content, rfl⟩
  | added _ content => exact .inr ⟨content, rfl⟩

/-- Where a file may be written, putting one there is a writing of files. -/
theorem IsFree.rewritten_put (hfree : disk.IsFree location) (content : Content) :
    Rewritten True disk (disk.put location (.file content)) := by
  refine (Rewritten.refl disk).put ?_
  rcases hfree with hnone | hfile
  · exact .inr ⟨trivial, hnone⟩
  · exact .inl hfile

/-- Where only files have been written that were there, files may as well have been added. -/
theorem Rewritten.grow (h : Rewritten False old new) : Rewritten True old new :=
  ⟨h.workingDirectory, fun location => (h.node? location).grow⟩

/-- A chain of writings is a writing. -/
theorem Rewritten.trans {last : Disk} (h : Rewritten grows old new)
    (h' : Rewritten grows new last) : Rewritten grows old last := by
  refine ⟨h'.workingDirectory.trans h.workingDirectory, fun location => ?_⟩
  have hfirst := h.node? location
  have hsecond := h'.node? location
  generalize old.node? location = before at hfirst
  generalize new.node? location = between at hfirst hsecond
  generalize last.node? location = after at hsecond
  cases hsecond with
  | same => exact hfirst
  | file content content' => exact hfirst.again content'
  | added hgrows content =>
    rw [hfirst.eq_none]
    exact .added hgrows content

/-- A path can be written to where it could be before. -/
theorem Rewritten.writeLocation_eq_ok_iff (h : Rewritten grows old new) :
    new.writeLocation path = .ok location ↔ old.writeLocation path = .ok location := by
  rw [← Except.toOption_eq_some_iff, h.writeLocation_toOption, Except.toOption_eq_some_iff]

/-- Of two things that are put at a location only the last one is there. -/
theorem put_put (disk : Disk) (location : Location) (before node : Node) :
    (disk.put location before).put location node = disk.put location node := by
  simp only [put, ne_eq, decide_not, List.filter_cons, decide_true, Bool.not_true,
    Bool.false_eq_true, if_false, List.filter_filter, Bool.and_self]

/-! ### Copies and replacements -/

variable {machine : Machine}

/-- A copy is refused, or breaks off when the place has been emptied, or is complete. A file that is
copied onto itself is empty then. -/
theorem copyTo_cases (machine : Machine) {content : Content}
    (hfile : disk.node? location = some (.file content)) (hplace : place ≠ []) :
    (∃ fault, disk.copyTo machine location place = (.error fault, disk)) ∨
      (∃ fault left, disk.copyTo machine location place =
        (.error fault, disk.put place (.file left))) ∨
      ∃ copied, disk.copyTo machine location place = (.ok (), disk.put place (.file copied)) ∧
        (place ≠ location → copied = content) := by
  unfold copyTo
  split
  · exact .inl ⟨_, rfl⟩
  · exact .inr (.inl ⟨_, _, rfl⟩)
  · refine .inr (.inr ?_)
    -- the file is read when the place of the copy has been emptied
    by_cases hsame : place = location
    · subst hsame
      refine ⟨.text "", ?_, fun hne => absurd rfl hne⟩
      simp only [node?_put disk hplace, if_true, put_put]
    · refine ⟨content, ?_, fun _ => rfl⟩
      simp only [node?_put disk hplace, if_neg (Ne.symm hsame), hfile, put_put]

/-- Copying a file writes a file. -/
theorem IsFree.rewritten_copyTo (hfree : disk.IsFree place) (machine : Machine)
    (hfile : disk.fileLocation? path = some location) :
    Rewritten True disk (disk.copyTo machine location place).2 := by
  obtain ⟨content, hnode⟩ := node?_fileLocation? hfile
  rcases copyTo_cases machine hnode hfree.ne_nil with
    ⟨fault, hcopy⟩ | ⟨fault, left, hcopy⟩ | ⟨copied, hcopy, _⟩ <;> rw [hcopy]
  · exact .refl disk
  · exact hfree.rewritten_put left
  · exact hfree.rewritten_put copied

/-- A file is replaced, or nothing changes. -/
theorem replaceAt_cases (hwhole : machine.AllOrNothing) (disk : Disk) (location : Location)
    (text : String) :
    disk.replaceAt machine location text = (.ok (), disk.put location (.file (.text text))) ∨
      ∃ fault, disk.replaceAt machine location text = (.error fault, disk) := by
  unfold replaceAt
  split
  · exact .inr ⟨_, rfl⟩
  · exact hwhole disk location text

/-- A file is replaced or not, whatever other files hold. -/
theorem replaceAt_answer (hreplaces : machine.ReplacesLocally) (h : Rewritten True old new)
    (hnode : new.node? location = old.node? location) (text : String) :
    (new.replaceAt machine location text).1 = (old.replaceAt machine location text).1 := by
  simp only [replaceAt, hreplaces.prepare h hnode]
  split
  · rfl
  · exact hreplaces.persist h hnode text

/-- A file that is the same on two disks is replaced on both, or on none for the same fault. -/
theorem replaceAt_both_cases (hwhole : machine.AllOrNothing) (hreplaces : machine.ReplacesLocally)
    (h : Rewritten True old new) (hnode : new.node? location = old.node? location)
    (text : String) :
    (old.replaceAt machine location text = (.ok (), old.put location (.file (.text text))) ∧
        new.replaceAt machine location text = (.ok (), new.put location (.file (.text text)))) ∨
      ∃ fault, old.replaceAt machine location text = (.error fault, old) ∧
        new.replaceAt machine location text = (.error fault, new) := by
  have hanswer := replaceAt_answer hreplaces h hnode text
  rcases replaceAt_cases hwhole old location text with hold | ⟨fault, hold⟩ <;>
    rcases replaceAt_cases hwhole new location text with hnew | ⟨fault', hnew⟩ <;>
    rw [hold, hnew] at hanswer
  · exact .inl ⟨hold, hnew⟩
  · cases hanswer
  · cases hanswer
  · obtain rfl : fault' = fault := Except.error.inj hanswer
    exact .inr ⟨fault', hold, hnew⟩

/-! ### One result -/

section Steps

variable (h : disk.fileLocation? path = some location)

include h

/-- A path that stands for a file is replaced at the place of that file. -/
theorem replace_eq (text : String) :
    disk.replace path text machine = disk.replaceAt machine location text := by
  obtain ⟨content, hresolve⟩ := fileLocation?_eq_some_iff.mp h
  simp only [replace, hresolve]

/-- A path that stands for a file is copied from the place of that file. -/
theorem copy_eq {destination : Path} (hplace : disk.writeLocation destination = .ok place) :
    disk.copy path destination machine = disk.copyTo machine location place := by
  obtain ⟨content, hresolve⟩ := fileLocation?_eq_some_iff.mp h
  simp only [copy, hresolve, hplace]

/-- Where the copy has no place, nothing is copied. -/
theorem copy_eq_error {destination : Path} {fault : IoFault}
    (hplace : disk.writeLocation destination = .error fault) :
    disk.copy path destination machine = (.error fault, disk) := by
  obtain ⟨content, hresolve⟩ := fileLocation?_eq_some_iff.mp h
  simp only [copy, hresolve, hplace]

/-- Without a backup, a result replaces its file. -/
theorem writeResult_plain (text : String) :
    disk.writeResult false path text machine = disk.replaceAt machine location text := by
  simp only [writeResult, Bool.false_eq_true, if_false, replace_eq h]

end Steps

/-- Without its backup a result is not written. -/
theorem writeResult_of_copy_error {fault : IoFault} {after : Disk}
    (hcopy : disk.copy path path.backup machine = (.error fault, after)) (text : String) :
    disk.writeResult true path text machine = (.error fault, after) := by
  simp only [writeResult, if_true, hcopy]

/-- Behind its backup, a result replaces its file. -/
theorem writeResult_of_copy_ok {copied : Disk}
    (hcopy : disk.copy path path.backup machine = (.ok (), copied))
    (hfile : copied.fileLocation? path = some location) (text : String) :
    disk.writeResult true path text machine = copied.replaceAt machine location text := by
  simp only [writeResult, if_true, hcopy, replace_eq hfile]

/-- How the writing of a result may end on a disk, with the disk after it. The paths stand for what
they stand for on the disk `start`. -/
inductive Written (start disk : Disk) (backup : Bool) (path : Path) (text : String) :
    Except IoFault Unit → Disk → Prop
  /-- Something is refused before anything has changed. -/
  | refused (fault : IoFault) : Written start disk backup path text (.error fault) disk
  /-- The backup has been opened, and the file is as it was. -/
  | copied (fault : IoFault) {place : Location} (left : Content) (hbackup : backup = true)
      (hplace : start.writeLocation path.backup = .ok place) :
      Written start disk backup path text (.error fault) (disk.put place (.file left))
  /-- The file holds the result, and no backup is kept. -/
  | replaced {location : Location} (hbackup : backup = false)
      (hfile : start.fileLocation? path = some location) :
      Written start disk backup path text (.ok ()) (disk.put location (.file (.text text)))
  /-- The file holds the result, and the backup what the file held. -/
  | kept {location place : Location} (copied : Content) (hbackup : backup = true)
      (hfile : start.fileLocation? path = some location)
      (hplace : start.writeLocation path.backup = .ok place)
      (hcopied : place ≠ location → disk.node? location = some (.file copied)) :
      Written start disk backup path text (.ok ())
        ((disk.put place (.file copied)).put location (.file (.text text)))

/-- On what a well-formed disk has become, the writing of a result ends in one of these ways. -/
theorem writeResult_written (hwhole : machine.AllOrNothing) {start after : Disk}
    (hstart : start.WellFormed) (h : Rewritten True start disk)
    (hfile : start.fileLocation? path = some location) {backup : Bool} {text : String}
    {answer : Except IoFault Unit}
    (hwrite : disk.writeResult backup path text machine = (answer, after)) :
    Written start disk backup path text answer after := by
  have hhere := h.fileLocation? hfile
  cases backup with
  | false =>
    rw [writeResult_plain hhere] at hwrite
    rcases replaceAt_cases hwhole disk location text with hok | ⟨fault, herror⟩
    · obtain ⟨rfl, rfl⟩ := Prod.mk.inj (hok.symm.trans hwrite)
      exact .replaced rfl hfile
    · obtain ⟨rfl, rfl⟩ := Prod.mk.inj (herror.symm.trans hwrite)
      exact .refused fault
  | true =>
    obtain ⟨content, hnode⟩ := node?_fileLocation? hhere
    cases hbackup : disk.writeLocation path.backup with
    | error fault =>
      rw [writeResult_of_copy_error (copy_eq_error hhere hbackup)] at hwrite
      obtain ⟨rfl, rfl⟩ := Prod.mk.inj hwrite
      exact .refused fault
    | ok place =>
      have hplace := h.writeLocation_eq_ok_iff.mp hbackup
      have hfree := h.isFree (hstart.node?_writeLocation hplace)
      have hcopy : disk.copy path path.backup machine = disk.copyTo machine location place :=
        copy_eq hhere hbackup
      rcases copyTo_cases machine hnode hfree.ne_nil with
        ⟨fault, hcopied⟩ | ⟨fault, left, hcopied⟩ | ⟨copied, hcopied, hcontent⟩
      · rw [writeResult_of_copy_error (hcopy.trans hcopied)] at hwrite
        obtain ⟨rfl, rfl⟩ := Prod.mk.inj hwrite
        exact .refused fault
      · rw [writeResult_of_copy_error (hcopy.trans hcopied)] at hwrite
        obtain ⟨rfl, rfl⟩ := Prod.mk.inj hwrite
        exact .copied fault left rfl hplace
      · rw [writeResult_of_copy_ok (hcopy.trans hcopied)
          ((hfree.rewritten_put copied).fileLocation? hhere)] at hwrite
        rcases replaceAt_cases hwhole (disk.put place (.file copied)) location text with
          hok | ⟨fault, herror⟩
        · obtain ⟨rfl, rfl⟩ := Prod.mk.inj (hok.symm.trans hwrite)
          refine .kept copied rfl hfile hplace fun hne => ?_
          rw [hcontent hne, hnode]
        · obtain ⟨rfl, rfl⟩ := Prod.mk.inj (herror.symm.trans hwrite)
          exact .copied fault copied rfl hplace

namespace Written

variable {start after : Disk} {backup : Bool} {text : String} {answer : Except IoFault Unit}
  (hwritten : Written start disk backup path text answer after) (hstart : start.WellFormed)
  (h : Rewritten True start disk)

include hwritten hstart h

/-- The writing of a result writes files, and nothing else. -/
theorem rewritten : Rewritten True disk after := by
  have hplaceFree {place : Location} (hplace : start.writeLocation path.backup = .ok place) :
      disk.IsFree place := h.isFree (hstart.node?_writeLocation hplace)
  have hfileFree {location : Location} (hfile : start.fileLocation? path = some location) :
      disk.IsFree location := isFree_of_fileLocation? (h.fileLocation? hfile)
  cases hwritten with
  | refused => exact .refl disk
  | copied _ left _ hplace => exact (hplaceFree hplace).rewritten_put left
  | replaced _ hfile => exact (hfileFree hfile).rewritten_put _
  | kept copied _ hfile hplace _ =>
    have hcopy := (hplaceFree hplace).rewritten_put copied
    exact hcopy.trans ((hcopy.isFree (hfileFree hfile)).rewritten_put _)

/-- The writing of a result changes the file only when it succeeds, and else at most its backup. -/
theorem node?_eq {other : Location}
    (hfile : answer = .ok () → start.fileLocation? path ≠ some other)
    (hbackup : backup = true → start.writeLocation path.backup ≠ .ok other) :
    after.node? other = disk.node? other := by
  have hplaceRoot {place : Location} (hplace : start.writeLocation path.backup = .ok place) :
      place ≠ [] := (h.isFree (hstart.node?_writeLocation hplace)).ne_nil
  have hfileRoot {location : Location} (hfile : start.fileLocation? path = some location) :
      location ≠ [] := (isFree_of_fileLocation? hfile).ne_nil
  have hneFile {location : Location} (hanswer : answer = .ok ())
      (hlocation : start.fileLocation? path = some location) : other ≠ location := by
    rintro rfl
    exact hfile hanswer hlocation
  have hneBackup {place : Location} (hkeeps : backup = true)
      (hplace : start.writeLocation path.backup = .ok place) : other ≠ place := by
    rintro rfl
    exact hbackup hkeeps hplace
  cases hwritten with
  | refused => rfl
  | copied _ left hkeeps hplace =>
    rw [node?_put disk (hplaceRoot hplace), if_neg (hneBackup hkeeps hplace)]
  | replaced _ hlocation =>
    rw [node?_put disk (hfileRoot hlocation), if_neg (hneFile rfl hlocation)]
  | kept copied hkeeps hlocation hplace _ =>
    rw [node?_put _ (hfileRoot hlocation), if_neg (hneFile rfl hlocation),
      node?_put disk (hplaceRoot hplace), if_neg (hneBackup hkeeps hplace)]

end Written

end Disk

end Reclass
