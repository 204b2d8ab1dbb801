import Mathlib
import SdkTools.Types
import SdkTools.Lib.Ranges

/-!
# End points of value ranges

The bounds of a value constraint and their comparison (`util.c`). The values
are integers of any size or characters, which are 32-bit numbers and wrap.
-/

namespace SdkTools.Asn1

set_option autoImplicit false

open SdkTools.Lib.Ranges

universe u

/-- The values a range can be over, with the arithmetic the end points need. -/
class BoundValue (α : Type u) extends LinearOrder α where
  /-- The value plus one, as `GetLowerEndPoint` computes it. -/
  inc : α → α
  /-- The value minus one, as `GetUpperEndPoint` computes it. -/
  dec : α → α
  /-- The last test of `CheckEndPointsJoin`, for values that are not in order. -/
  subsequent : α → α → Bool
  inc_dec : ∀ v, inc (dec v) = v
  dec_inc : ∀ v, dec (inc v) = v
  lt_iff_inc_le : ∀ v w : α, ¬ IsMax v → (v < w ↔ inc v ≤ w)
  lt_iff_le_dec : ∀ v w : α, ¬ IsMin w → (v < w ↔ v ≤ dec w)
  subsequent_iff : ∀ v w : α, v < w → (subsequent v w = true ↔ ∀ x, v < x → w ≤ x)

instance : BoundValue Int where
  inc v := v + 1
  dec v := v - 1
  subsequent v w := decide (v + 1 ≥ w)
  inc_dec := by
    intro v
    omega
  dec_inc := by
    intro v
    omega
  lt_iff_inc_le := by
    intro v w _
    exact Iff.rfl
  lt_iff_le_dec := by
    intro v w _
    omega
  subsequent_iff := by
    intro v w _
    rw [decide_eq_true_iff]
    constructor
    · intro h x hx
      omega
    · intro h
      exact h (v + 1) (by omega)

/-- `char32_t` -/
abbrev Char32 := Fin (2 ^ 32)

theorem Char32.val_inc {v : Char32} (h : v.val < 2 ^ 32 - 1) : (v + 1).val = v.val + 1 := by
  rw [Fin.val_add]
  exact Nat.mod_eq_of_lt (by simp only [Fin.val_one]; omega)

theorem Char32.val_dec {v : Char32} (h : 0 < v.val) : (v - 1).val = v.val - 1 := by
  have hinc : (v - 1 + 1).val = v.val := by rw [sub_add_cancel]
  have hone : ((1 : Char32)).val = 1 := rfl
  rw [Fin.sub_def]
  simp only [hone]
  have hv : v.val < 2 ^ 32 := v.isLt
  omega

instance : BoundValue Char32 where
  inc v := v + 1
  dec v := v - 1
  -- beware of wrap around
  subsequent v w := if v = 0xffffffff ∧ w = 0 then false else decide (w - v = 1)
  inc_dec v := sub_add_cancel v 1
  dec_inc v := add_sub_cancel_right v 1
  lt_iff_inc_le := by
    intro v w hv
    have hlt : v.val < 2 ^ 32 - 1 := by
      by_contra hge
      refine hv fun x _ => ?_
      rw [Fin.le_def]
      omega
    rw [Fin.lt_def, Fin.le_def, Char32.val_inc hlt]
    exact Iff.rfl
  lt_iff_le_dec := by
    intro v w hw
    have hlt : 0 < w.val := by
      by_contra hge
      refine hw fun x _ => ?_
      rw [Fin.le_def]
      omega
    rw [Fin.lt_def, Fin.le_def, Char32.val_dec hlt]
    omega
  subsequent_iff := by
    intro v w hvw
    have hlt : v.val < 2 ^ 32 - 1 := by
      rw [Fin.lt_def] at hvw
      omega
    have hw : w ≠ 0 := by
      rintro rfl
      exact absurd hvw (Fin.not_lt_zero v)
    rw [if_neg fun h => hw h.2, decide_eq_true_iff, sub_eq_iff_eq_add]
    constructor
    · intro h x hx
      rw [h, add_comm, Fin.le_def, Char32.val_inc hlt]
      exact hx
    · intro h
      have hle : w ≤ v + 1 := h (v + 1) (by rw [Fin.lt_def, Char32.val_inc hlt]; omega)
      rw [Fin.le_def, Char32.val_inc hlt] at hle
      rw [Fin.ext_iff, add_comm, Char32.val_inc hlt]
      rw [Fin.lt_def] at hvw
      omega

variable {α : Type u}

/-- A lower end point carries the flag `eEndPoint_Min` or a value. -/
inductive LowerEndPoint (α : Type u) where
  | min (isOpen : Bool)
  | value (v : α) (isOpen : Bool)
  deriving DecidableEq

/-- An upper end point carries the flag `eEndPoint_Max` or a value. -/
inductive UpperEndPoint (α : Type u) where
  | max (isOpen : Bool)
  | value (v : α) (isOpen : Bool)
  deriving DecidableEq

def LowerEndPoint.isMin : LowerEndPoint α → Bool
  | .min _ => true
  | .value _ _ => false

def UpperEndPoint.isMax : UpperEndPoint α → Bool
  | .max _ => true
  | .value _ _ => false

structure ValueConstraint (α : Type u) where
  lower : LowerEndPoint α
  upper : UpperEndPoint α
  deriving DecidableEq

def cmpValue [LinearOrder α] (v w : α) : Int := if v < w then -1 else if w < v then 1 else 0

section Compare

variable [BoundValue α]

/-- Adjust the end point if it is open. -/
def getLowerEndPoint : LowerEndPoint α → LowerEndPoint α
  | .min o => .min o
  | .value v true => .value (BoundValue.inc v) false
  | .value v false => .value v false

def getUpperEndPoint : UpperEndPoint α → UpperEndPoint α
  | .max o => .max o
  | .value v true => .value (BoundValue.dec v) false
  | .value v false => .value v false

def cmpLowerEndPoint (e₁ e₂ : LowerEndPoint α) : Int :=
  match getLowerEndPoint e₁, getLowerEndPoint e₂ with
  | .min _, .min _ => 0
  | .min _, .value _ _ => -1
  | .value _ _, .min _ => 1
  | .value v o, .value w p =>
    if cmpValue v w ≠ 0 then cmpValue v w
    else if o then (if p then 0 else 1)
    else if p then -1
    else 0

def cmpUpperEndPoint (e₁ e₂ : UpperEndPoint α) : Int :=
  match getUpperEndPoint e₁, getUpperEndPoint e₂ with
  | .max _, .max _ => 0
  | .max _, .value _ _ => 1
  | .value _ _, .max _ => -1
  | .value v o, .value w p =>
    if cmpValue v w ≠ 0 then cmpValue v w
    else if o then (if p then 0 else -1)
    else if p then 1
    else 0

def cmpLowerUpperEndPoint (e₁ : LowerEndPoint α) (e₂ : UpperEndPoint α) : Int :=
  match getLowerEndPoint e₁, getUpperEndPoint e₂ with
  | .min _, _ => -1
  | .value _ _, .max _ => -1
  | .value v o, .value w p =>
    if cmpValue v w ≠ 0 then cmpValue v w
    else if o || p then 1
    else 0

/-- Whether two end points join together. -/
def checkEndPointsJoin (e₁ : UpperEndPoint α) (e₂ : LowerEndPoint α) : Bool :=
  if cmpLowerUpperEndPoint e₂ e₁ ≤ 0 then true
  else
    match getUpperEndPoint e₁, getLowerEndPoint e₂ with
    | .value v _, .value w _ => BoundValue.subsequent v w
    | _, _ => true

end Compare

section CmpValue

variable [LinearOrder α] {v w : α}

theorem cmpValue_le_zero : cmpValue v w ≤ 0 ↔ v ≤ w := by
  unfold cmpValue
  split
  · rename_i h
    simp [h.le]
  · split
    · rename_i h
      simp [h]
    · rename_i h h'
      simp [not_lt.mp h']

theorem cmpValue_ge_zero : 0 ≤ cmpValue v w ↔ w ≤ v := by
  unfold cmpValue
  split
  · rename_i h
    simp [h]
  · split
    · rename_i h h'
      simp [h'.le]
    · rename_i h h'
      simp [not_lt.mp h]

@[simp] theorem cmpValue_ite (v w : α) :
    (if cmpValue v w = 0 then 0 else cmpValue v w) = cmpValue v w := by
  split
  · rename_i h
    exact h.symm
  · rfl

@[simp] theorem cmpValue_coe_bot (v w : α) : cmpValue (v : WithBot α) w = cmpValue v w := by
  simp [cmpValue, WithBot.coe_lt_coe]

@[simp] theorem cmpValue_coe_top (v w : α) : cmpValue (v : WithTop α) w = cmpValue v w := by
  simp [cmpValue, WithTop.coe_lt_coe]

end CmpValue

section Norm

variable [BoundValue α]

/-- The least value the end point admits. -/
def LowerEndPoint.norm : LowerEndPoint α → WithBot α
  | .min _ => ⊥
  | .value v true => ((BoundValue.inc v : α) : WithBot α)
  | .value v false => v

/-- The greatest value the end point admits. -/
def UpperEndPoint.norm : UpperEndPoint α → WithTop α
  | .max _ => ⊤
  | .value v true => ((BoundValue.dec v : α) : WithTop α)
  | .value v false => v

def ValueConstraint.norm (c : ValueConstraint α) : Range α := ⟨c.lower.norm, c.upper.norm⟩

theorem cmpLowerEndPoint_eq (e₁ e₂ : LowerEndPoint α) :
    cmpLowerEndPoint e₁ e₂ = cmpValue e₁.norm e₂.norm := by
  rcases e₁ with o | ⟨v, o⟩ <;> rcases e₂ with p | ⟨w, p⟩
  · simp [cmpLowerEndPoint, getLowerEndPoint, LowerEndPoint.norm, cmpValue]
  · cases p <;> simp [cmpLowerEndPoint, getLowerEndPoint, LowerEndPoint.norm, cmpValue]
  · cases o <;> simp [cmpLowerEndPoint, getLowerEndPoint, LowerEndPoint.norm, cmpValue]
  · cases o <;> cases p <;>
      simp [cmpLowerEndPoint, getLowerEndPoint, LowerEndPoint.norm]

theorem cmpUpperEndPoint_eq (e₁ e₂ : UpperEndPoint α) :
    cmpUpperEndPoint e₁ e₂ = cmpValue e₁.norm e₂.norm := by
  rcases e₁ with o | ⟨v, o⟩ <;> rcases e₂ with p | ⟨w, p⟩
  · simp [cmpUpperEndPoint, getUpperEndPoint, UpperEndPoint.norm, cmpValue]
  · cases p <;> simp [cmpUpperEndPoint, getUpperEndPoint, UpperEndPoint.norm, cmpValue]
  · cases o <;> simp [cmpUpperEndPoint, getUpperEndPoint, UpperEndPoint.norm, cmpValue]
  · cases o <;> cases p <;>
      simp [cmpUpperEndPoint, getUpperEndPoint, UpperEndPoint.norm]

/-- The bounds do not exclude each other. -/
def Meets (lo : WithBot α) (hi : WithTop α) : Prop := ∀ v w : α, lo = v → hi = w → v ≤ w

theorem meets_of_has {r : Range α} {x : α} (h : r.Has x) : Meets r.lo r.hi := by
  intro v w hv hw
  obtain ⟨hlo, hhi⟩ := h
  rw [hv] at hlo
  rw [hw] at hhi
  exact (WithBot.coe_le_coe.mp hlo).trans (WithTop.coe_le_coe.mp hhi)

theorem cmpLowerUpperEndPoint_le_zero (e₁ : LowerEndPoint α) (e₂ : UpperEndPoint α) :
    cmpLowerUpperEndPoint e₁ e₂ ≤ 0 ↔ Meets e₁.norm e₂.norm := by
  rcases e₁ with o | ⟨v, o⟩ <;> rcases e₂ with p | ⟨w, p⟩
  · simp [cmpLowerUpperEndPoint, getLowerEndPoint, getUpperEndPoint, Meets, LowerEndPoint.norm]
  · cases p <;>
      simp [cmpLowerUpperEndPoint, getLowerEndPoint, getUpperEndPoint, Meets, LowerEndPoint.norm]
  · cases o <;>
      simp [cmpLowerUpperEndPoint, getLowerEndPoint, getUpperEndPoint, Meets, UpperEndPoint.norm]
  · cases o <;> cases p <;>
      simp [cmpLowerUpperEndPoint, getLowerEndPoint, getUpperEndPoint, Meets,
        LowerEndPoint.norm, UpperEndPoint.norm, cmpValue_le_zero]

end Norm

end SdkTools.Asn1
