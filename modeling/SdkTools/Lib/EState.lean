import Mathlib.Init

/-!
# Runs of stateful programs with exceptions

Rules for the sequencing of `EStateM` programs that start in a given state.
-/

namespace SdkTools.Lib.EState

set_option autoImplicit false

universe u

variable {ε σ α β : Type u} {x : EStateM ε σ α} {f : α → EStateM ε σ β} {s s' : σ}

theorem bind_of_ok {a : α} (h : x s = .ok a s') : (x >>= f) s = f a s' := by
  change EStateM.bind x f s = f a s'
  rw [EStateM.bind, h]

theorem bind_of_error {e : ε} (h : x s = .error e s') : (x >>= f) s = .error e s' := by
  change EStateM.bind x f s = .error e s'
  rw [EStateM.bind, h]

end SdkTools.Lib.EState
