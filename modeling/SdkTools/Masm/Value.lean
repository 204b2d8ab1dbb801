import SdkTools.Masm.Levels

/-!
# The value of a MASM expression

Every level of the recursive descent reads the longest expression of its level and
returns its value; without such an expression it raises an error.
-/

namespace SdkTools.Masm

open Lib.EState Lib.Operators

set_option autoImplicit false

section Levels

variable {Addr : Type} {env : Env Addr} {f₀ : Bool} {t₀ : List CHAR}

/-! ### Terms -/

section Terms

variable (start : Eval Addr LONG64) {n : Nat} {cs ts rest : List Token} {s : MasmState Addr}

variable {start}
  (hstart : Parses env f₀ t₀ 1 n start)
  (hsaved : ∀ {s s' : MasmState Addr} {v : LONG64}, start s = .ok v s' → s'.saved ≠ none)

include hstart hsaved

end Terms

end Levels

end SdkTools.Masm
