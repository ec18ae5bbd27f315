import Mathlib.Logic.Basic

/-!
# Outcomes of computations that may stop

`Meets x E P` says of a computation in `Except` that the value it returns satisfies `P`, and the
reason for which it stops satisfies `E`. With `E` the empty predicate it says that the computation
returns.
-/

namespace Outcome

universe u v

variable {ε : Type u} {α β : Type v} {E E' : ε → Prop} {P P' : α → Prop} {Q : β → Prop}

/-- What is returned satisfies `P`; a reason to stop satisfies `E`. -/
def Meets (x : Except ε α) (E : ε → Prop) (P : α → Prop) : Prop :=
  match x with
  | .ok a => P a
  | .error r => E r

instance {x : Except ε α} [DecidablePred E] [DecidablePred P] : Decidable (Meets x E P) :=
  match x with
  | .ok a => inferInstanceAs (Decidable (P a))
  | .error r => inferInstanceAs (Decidable (E r))

theorem Meets.imp {x : Except ε α} (h : Meets x E P) (hE : ∀ r, E r → E' r) (hP : ∀ a, P a → P' a) :
    Meets x E' P' := by
  cases x with
  | ok a => exact hP a h
  | error r => exact hE r h

/-- **One computation after another.** -/
theorem Meets.bind {x : Except ε α} {f : α → Except ε β} (h : Meets x E P)
    (hf : ∀ a, P a → Meets (f a) E Q) : Meets (x >>= f) E Q := by
  cases x with
  | ok a => exact hf a h
  | error r => exact h

/-- The computation returns a value that satisfies `P`. -/
abbrev Returns (x : Except ε α) (P : α → Prop) : Prop := Meets x (fun _ ↦ False) P

theorem Meets.returns {x : Except ε α} (h : Returns x P) : ∃ a, x = .ok a ∧ P a := by
  cases x with
  | ok a => exact ⟨a, rfl, h⟩
  | error r => exact h.elim

end Outcome
