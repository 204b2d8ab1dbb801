import SdkTools.Masm.Lexing

/-!
# Numeric literals of 64 bits and more

`NextToken` on every literal, also on those that do not fit 64 bits. Overflow is inferred
from wrapped products and sums, and a literal that starts with a letter is then taken for a
symbol.
-/

namespace SdkTools.Masm

open Lib.Digits

set_option autoImplicit false

variable {cfg : LexConfig} {force : Bool}

/-- The product or the sum for one more digit wraps to something smaller. -/
def wraps (radix n d : Nat) : Bool :=
  n * radix % 2 ^ 64 < n % 2 ^ 64 || (n * radix + d) % 2 ^ 64 < n * radix % 2 ^ 64

/-- Some digit of `s`, after digits of value `n`, wraps to something smaller. -/
def noticed (radix : Nat) : Nat → List CHAR → Bool
  | _, [] => false
  | n, c :: s =>
    let d := (digitOf c).getD 0
    wraps radix n d || noticed radix (n * radix + d) s

/-- A number below 64 bits wraps nowhere. -/
theorem noticed_eq_false {radix n : Nat} {s : List CHAR} (hr : 0 < radix)
    (h : valueFrom radix n s < 2 ^ 64) : noticed radix n s = false := by
  induction s generalizing n with
  | nil => rfl
  | cons c s ih =>
    rw [valueFrom_cons] at h
    have hle := le_valueFrom hr (n * radix + (digitOf c).getD 0) s
    have hn := Nat.le_mul_of_pos_right n hr
    have hwraps : wraps radix n ((digitOf c).getD 0) = false := by
      rw [wraps, Nat.mod_eq_of_lt (show n < 2 ^ 64 by omega),
        Nat.mod_eq_of_lt (show n * radix < 2 ^ 64 by omega),
        Nat.mod_eq_of_lt (show n * radix + (digitOf c).getD 0 < 2 ^ 64 by omega)]
      simp only [Bool.or_eq_false_iff, decide_eq_false_iff_not]
      omega
    rw [noticed, hwraps, Bool.false_or]
    exact ih h

end SdkTools.Masm
