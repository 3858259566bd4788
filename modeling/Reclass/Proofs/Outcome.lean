/-!
# Outcomes of steps that may fail

When a chain of steps succeeds, each of its steps has succeeded, and when it fails, it does so with
the error of one of them.
-/

namespace Except

variable {ε ε' α β : Type}

/-- A change of the value succeeds when there is a value to change. -/
theorem map_eq_ok_iff {f : α → β} {x : Except ε α} {b : β} :
    x.map f = .ok b ↔ ∃ a, x = .ok a ∧ f a = b := by
  cases x <;> simp [Except.map]

/-- A change of the value does not touch a failure. -/
theorem map_eq_error_iff {f : α → β} {x : Except ε α} {e : ε} :
    x.map f = .error e ↔ x = .error e := by
  cases x <;> simp [Except.map]

/-- Two steps succeed when the first one does, and the second one on its value. -/
theorem bind_eq_ok_iff {x : Except ε α} {f : α → Except ε β} {b : β} :
    (x >>= f) = .ok b ↔ ∃ a, x = .ok a ∧ f a = .ok b := by
  cases x <;> simp [bind, Except.bind]

/-- A change of the error does not touch a success. -/
theorem mapError_eq_ok_iff {f : ε → ε'} {x : Except ε α} {a : α} :
    x.mapError f = .ok a ↔ x = .ok a := by
  cases x with
  | error e =>
    change Except.error (f e) = .ok a ↔ Except.error e = .ok a
    simp
  | ok b =>
    change (Except.ok b : Except ε' α) = .ok a ↔ (Except.ok b : Except ε α) = .ok a
    simp

/-- An outcome as an optional value is the value of a success. -/
theorem toOption_eq_some_iff {x : Except ε α} {a : α} : x.toOption = some a ↔ x = .ok a := by
  cases x <;> simp [Except.toOption]

/-- An outcome without a value is an error. -/
theorem toOption_eq_none_iff {x : Except ε α} : x.toOption = none ↔ ∃ e, x = .error e := by
  cases x <;> simp [Except.toOption]

/-- Mapping an outcome maps its value. -/
@[simp] theorem toOption_map {f : α → β} {x : Except ε α} :
    (x.map f).toOption = x.toOption.map f := by
  cases x <;> rfl

/-- The value of two steps is that of the second one for the value of the first. -/
theorem toOption_bind {x : Except ε α} {f : α → Except ε β} :
    (x >>= f).toOption = x.toOption.bind fun a => (f a).toOption := by
  cases x <;> rfl

/-- Two chains of steps have the same outcome, up to a change of the errors, when their first steps
have, up to a change `g` of the value, and what follows makes up for that change. -/
theorem mapError_bind_congr {f : ε → ε'} {x x' : Except ε α} {k k' : α → Except ε β} (g : α → α)
    (hx : x'.mapError f = (x.map g).mapError f)
    (hk : ∀ a, (k' (g a)).mapError f = (k a).mapError f) :
    (x' >>= k').mapError f = (x >>= k).mapError f := by
  cases x with
  | error e =>
    cases x' with
    | error e' => exact congrArg Except.error (Except.error.inj hx)
    | ok a' => cases hx
  | ok a =>
    cases x' with
    | error e' => cases hx
    | ok a' =>
      obtain rfl : a' = g a := Except.ok.inj hx
      exact hk a

/-! ### Errors -/

/-- That a step, if it fails, does so with an error of some kind. -/
def FailsAs (kind : ε → Prop) (x : Except ε α) : Prop := ∀ e, x = .error e → kind e

variable {kind : ε → Prop} {x : Except ε α}

/-- An error of some kind is an outcome that fails so. -/
theorem failsAs_error {e : ε} (h : kind e) : FailsAs kind (.error e : Except ε α) := by
  intro e' heq
  cases heq
  exact h

/-- What does not fail fails in any way. -/
theorem failsAs_ok (a : α) : FailsAs kind (.ok a) := by
  intro e heq
  cases heq

/-- An error that is put in place of another one has the kind that all those have. -/
theorem failsAs_mapError {f : ε' → ε} (x : Except ε' α) (h : ∀ e, kind (f e)) :
    FailsAs kind (x.mapError f) := by
  cases x with
  | error e => exact failsAs_error (h e)
  | ok a => exact failsAs_ok a

/-- Two steps fail with the error of one of them. -/
theorem FailsAs.bind {f : α → Except ε β} (hx : FailsAs kind x)
    (hf : ∀ a, x = .ok a → FailsAs kind (f a)) : FailsAs kind (x >>= f) := by
  cases x with
  | error e => exact failsAs_error (hx e rfl)
  | ok a => exact hf a rfl

/-- A change of the value fails as before. -/
theorem FailsAs.map (hx : FailsAs kind x) (f : α → β) : FailsAs kind (x.map f) := by
  intro e h
  exact hx e (map_eq_error_iff.mp h)

/-- A step for each element of a list fails with the error of one of the steps. -/
theorem failsAs_mapM {f : α → Except ε β} (hf : ∀ a, FailsAs kind (f a)) (as : List α) :
    FailsAs kind (as.mapM f) := by
  induction as with
  | nil => exact failsAs_ok []
  | cons a as ih =>
    rw [List.mapM_cons]
    exact (hf a).bind fun b _ => ih.bind fun bs _ => failsAs_ok (b :: bs)

end Except
