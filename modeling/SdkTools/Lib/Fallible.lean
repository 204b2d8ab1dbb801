import Mathlib.Init

/-!
# Computations that may fail

What the parts of a successful computation returned.
-/

namespace SdkTools.Lib

set_option autoImplicit false

universe u

variable {ε : Type u} {α β : Type u} {x : Except ε α} {f : α → Except ε β} {b : β}

theorem bind_eq_ok (h : (x >>= f) = .ok b) : ∃ a, x = .ok a ∧ f a = .ok b := by
  cases x with
  | error e => cases h
  | ok a => exact ⟨a, rfl, h⟩

end SdkTools.Lib
