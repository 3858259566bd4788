import Reclass.Disk.Writing
import Reclass.Proofs.Disk.Rewriting

/-!
# What machines are relied on for

A machine may refuse to write for reasons of its own. What a batch of files relies on is that a new
file takes the place of another one as a whole, and that writing one file does not decide whether
another one can be written. A machine on which some directories cannot be changed is an example.
-/

namespace Reclass

namespace Machine

/-- That moving a new file to the place of another one replaces this one, or changes nothing. -/
def AllOrNothing (machine : Machine) : Prop :=
  ∀ disk location text,
    machine.persist disk location text = (.ok (), disk.put location (.file (.text text))) ∨
      ∃ fault, machine.persist disk location text = (.error fault, disk)

/-- That whether a file can be replaced does not depend on what other files hold, nor on files that
have been added. -/
structure ReplacesLocally (machine : Machine) : Prop where
  prepare : ∀ {old new : Disk} {location : Location}, Disk.Rewritten True old new →
    new.node? location = old.node? location →
    ∀ text, machine.prepare new location text = machine.prepare old location text
  persist : ∀ {old new : Disk} {location : Location}, Disk.Rewritten True old new →
    new.node? location = old.node? location →
    ∀ text, (machine.persist new location text).1 = (machine.persist old location text).1

/-- That whether a file can be copied to a place depends only on what is at these two. -/
def CopiesLocally (machine : Machine) : Prop :=
  ∀ {old new : Disk} {location place : Location}, Disk.Rewritten True old new →
    new.node? location = old.node? location → new.node? place = old.node? place →
    machine.breaksCopy? new location place = machine.breaksCopy? old location place

/-- The machine that lets nothing be added to some directories. Files that are there already may be
filled, but not be replaced. -/
def locking (directories : List Location) : Machine where
  breaksCopy? disk _ place :=
    if place.tail ∈ directories ∧ disk.node? place = none then
      some { fault := .permissionDenied }
    else none
  prepare _ location _ :=
    if location.tail ∈ directories then .error .permissionDenied else .ok ()
  persist disk location text := (.ok (), disk.put location (.file (.text text)))

/-- A machine that refuses nothing replaces every file. -/
theorem allOrNothing_willing : willing.AllOrNothing :=
  fun _ _ _ => .inl rfl

variable (directories : List Location)

/-- Where nothing can be added, no file is replaced in part. -/
theorem allOrNothing_locking : (locking directories).AllOrNothing :=
  fun _ _ _ => .inl rfl

/-- Whether a file can be replaced is said by its directory alone. -/
theorem replacesLocally_locking : (locking directories).ReplacesLocally :=
  ⟨fun _ _ _ => rfl, fun _ _ _ => rfl⟩

/-- Whether a file can be copied is said by the place of the copy. -/
theorem copiesLocally_locking : (locking directories).CopiesLocally := by
  intro old new location place _ _ hplace
  simp only [locking, hplace]

end Machine

end Reclass
