import Mathlib.Data.List.Basic

/-!
# Digit strings

Characters are bytes in ASCII. The value of a digit string is read from the left,
one digit at a time, as programs do.
-/

namespace SdkTools.Lib.Digits

set_option autoImplicit false

/-- The digit that a character stands for, in a radix of up to sixteen. -/
def digitOf (c : BitVec 8) : Option Nat :=
  if 0x30 ≤ c ∧ c ≤ 0x39 then some (c.toNat - 0x30)
  else if 0x61 ≤ c ∧ c ≤ 0x66 then some (c.toNat - 0x57)
  else if 0x41 ≤ c ∧ c ≤ 0x46 then some (c.toNat - 0x37)
  else none

def isDigit (radix : Nat) (c : BitVec 8) : Bool :=
  match digitOf c with
  | some d => d < radix
  | none => false

def isAlnum (c : BitVec 8) : Bool :=
  (0x30 ≤ c ∧ c ≤ 0x39) ∨ (0x61 ≤ c ∧ c ≤ 0x7a) ∨ (0x41 ≤ c ∧ c ≤ 0x5a)

/-- The value of the digits `s` after digits of value `n`. -/
def valueFrom (radix n : Nat) (s : List (BitVec 8)) : Nat :=
  s.foldl (fun n c => n * radix + (digitOf c).getD 0) n

def digitsValue (radix : Nat) (s : List (BitVec 8)) : Nat := valueFrom radix 0 s

theorem digitOf_lt {c : BitVec 8} {d : Nat} (h : digitOf c = some d) : d < 16 := by
  have hall : ∀ c : BitVec 8, ∀ d ∈ digitOf c, d < 16 := by decide
  exact hall c d h

theorem digitOf_eq_none {c : BitVec 8} (h : isAlnum c = false) : digitOf c = none := by
  have hall : ∀ c : BitVec 8, isAlnum c = false → digitOf c = none := by decide
  exact hall c h

theorem isAlnum_of_isDigit {radix : Nat} {c : BitVec 8} (h : isDigit radix c = true) :
    isAlnum c = true := by
  by_contra hc
  simp [isDigit, digitOf_eq_none (Bool.eq_false_iff.mpr hc)] at h

theorem exists_of_isDigit {radix : Nat} {c : BitVec 8} (h : isDigit radix c = true) :
    ∃ d, digitOf c = some d ∧ d < radix := by
  unfold isDigit at h
  cases hd : digitOf c with
  | none => simp [hd] at h
  | some d => exact ⟨d, rfl, by simpa [hd] using h⟩

theorem valueFrom_cons (radix n : Nat) (c : BitVec 8) (s : List (BitVec 8)) :
    valueFrom radix n (c :: s) = valueFrom radix (n * radix + (digitOf c).getD 0) s := rfl

/-- Appending digits never makes a number smaller. -/
theorem le_valueFrom {radix : Nat} (hr : 0 < radix) (n : Nat) (s : List (BitVec 8)) :
    n ≤ valueFrom radix n s := by
  induction s generalizing n with
  | nil => exact Nat.le_refl n
  | cons c s ih =>
    have hstep : n ≤ n * radix + (digitOf c).getD 0 := by
      have := Nat.le_mul_of_pos_right n hr
      omega
    exact Nat.le_trans hstep (ih _)

end SdkTools.Lib.Digits
