import Mathlib
import SdkTools.Rc.ConstExpr

/-!
# Integer literals of the resource compiler

`matol` of `scanner.c` works in 32 bits. In octal and hexadecimal it looks at the upper
bits before it multiplies; in decimal it compares each result, as a signed number, with
the one before.
-/

namespace SdkTools.Rc.Scanner

set_option autoImplicit false

abbrev WCHAR := BitVec 16

def digitValue (c : WCHAR) : Option Nat :=
  if 0x30 ≤ c.toNat ∧ c.toNat ≤ 0x39 then some (c.toNat - 0x30)
  else if 0x61 ≤ c.toNat ∧ c.toNat ≤ 0x66 then some (c.toNat - 0x57)
  else if 0x41 ≤ c.toNat ∧ c.toNat ≤ 0x46 then some (c.toNat - 0x37)
  else none

def DigitString (radix : Nat) (s : List WCHAR) : Prop :=
  ∀ c ∈ s, (digitValue c).any (· < radix) = true

def valueFrom (radix n : Nat) (s : List WCHAR) : Nat :=
  s.foldl (fun n c => n * radix + (digitValue c).getD 0) n

def value (radix : Nat) (s : List WCHAR) : Nat := valueFrom radix 0 s

variable {radix n d : Nat} {c : WCHAR} {s : List WCHAR}

theorem DigitString.cons (h : DigitString radix (c :: s)) :
    ∃ d, digitValue c = some d ∧ d < radix ∧ DigitString radix s := by
  have hc := h c List.mem_cons_self
  have hs : DigitString radix s := by
    intro e he
    exact h e (List.mem_cons_of_mem _ he)
  cases hd : digitValue c with
  | none => simp [hd] at hc
  | some d => exact ⟨d, rfl, by simpa [hd] using hc, hs⟩

theorem valueFrom_cons (h : digitValue c = some d) :
    valueFrom radix n (c :: s) = valueFrom radix (n * radix + d) s := by
  simp [valueFrom, h]

theorem le_valueFrom {r : Nat} (hr : 0 < r) (n : Nat) (s : List WCHAR) : n ≤ valueFrom r n s := by
  induction s generalizing n with
  | nil => exact Nat.le_refl n
  | cons c s ih =>
    have hstep : n ≤ n * r + (digitValue c).getD 0 := by
      have := Nat.le_mul_of_pos_right n hr
      omega
    exact Nat.le_trans hstep (ih _)

end SdkTools.Rc.Scanner
