import Mathlib.Logic.Function.Basic

/-!
# What an update leaves alone
-/

namespace Function

variable {α β γ : Type*} [DecidableEq α] {f : α → β} {i : α} {v : β}

/-- What the new value shares with the old one is as it was everywhere. -/
theorem proj_update (p : β → γ) (h : p v = p (f i)) (j : α) : p (update f i v j) = p (f j) :=
  (forall_update_iff f fun j a ↦ p a = p (f j)).2 ⟨h, fun _ _ ↦ rfl⟩ j

end Function
