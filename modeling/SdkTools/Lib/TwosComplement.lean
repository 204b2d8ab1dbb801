import Mathlib.Data.List.Basic
import Mathlib.Algebra.Order.Ring.Int
import Mathlib.Tactic.Ring
import Mathlib.Tactic.Linarith

/-!
# Two's complement octet strings

An integer is a list of octets, the most significant one first. A string is as
short as possible if its first nine bits are not all equal.
-/

namespace SdkTools.Lib.TwosComplement

set_option autoImplicit false

abbrev Octet := BitVec 8

/-- The value without a sign. -/
def natOf : List Octet → Nat
  | [] => 0
  | x :: v => x.toNat * 256 ^ v.length + natOf v

def isNegative : List Octet → Bool
  | [] => false
  | x :: _ => decide (0x7f < x.toNat)

def intOf (v : List Octet) : Int := natOf v - if isNegative v then (256 : Int) ^ v.length else 0

/-- The octet in front of a string that does not change its value. -/
def fill (v : List Octet) : Octet := if isNegative v then 0xff else 0

/-- No shorter octet string has the value. -/
def Shortest (v : List Octet) : Prop :=
  v ≠ [] ∧ ∀ w, w ≠ [] → intOf w = intOf v → v.length ≤ w.length

theorem natOf_lt (v : List Octet) : natOf v < 256 ^ v.length := by
  induction v with
  | nil => exact Nat.one_pos
  | cons x v ih =>
    have hx := x.isLt
    have hmul : x.toNat * 256 ^ v.length ≤ 255 * 256 ^ v.length :=
      Nat.mul_le_mul_right _ (by omega)
    rw [natOf, List.length_cons, Nat.pow_succ]
    omega

theorem natOf_append (a b : List Octet) :
    natOf (a ++ b) = natOf a * 256 ^ b.length + natOf b := by
  induction a with
  | nil =>
    rw [List.nil_append, natOf]
    omega
  | cons x a ih =>
    rw [List.cons_append, natOf, natOf, ih, List.length_append]
    ring

/-- A string of `n + 1` octets holds the values from `-128 * 256 ^ n` on. -/
theorem intOf_range {x : Octet} {v : List Octet} :
    -128 * (256 : Int) ^ v.length ≤ intOf (x :: v) ∧ intOf (x :: v) < 128 * (256 : Int) ^ v.length := by
  have hx := x.isLt
  have hv : (natOf v : Int) < 256 ^ v.length := by exact_mod_cast natOf_lt v
  have hpos : (0 : Int) < 256 ^ v.length := by positivity
  have h0 : (0 : Int) ≤ natOf v := Int.natCast_nonneg _
  simp only [intOf, natOf, isNegative, decide_eq_true_eq, List.length_cons, pow_succ, Nat.cast_add,
    Nat.cast_mul, Nat.cast_pow, Nat.cast_ofNat]
  generalize (256 : Int) ^ v.length = p at *
  split
  · rename_i hneg
    have hlo : (128 : Int) * p ≤ x.toNat * p := by
      apply mul_le_mul_of_nonneg_right _ hpos.le
      exact_mod_cast hneg
    have hhi : (x.toNat : Int) * p ≤ 255 * p := by
      apply mul_le_mul_of_nonneg_right _ hpos.le
      exact_mod_cast Nat.le_of_lt_succ hx
    constructor
    · linarith
    · linarith
  · rename_i hneg
    have hhi : (x.toNat : Int) * p ≤ 127 * p := by
      apply mul_le_mul_of_nonneg_right _ hpos.le
      exact_mod_cast Nat.le_of_not_lt hneg
    have hlo : (0 : Int) ≤ x.toNat * p := by positivity
    constructor
    · linarith
    · linarith

/-- The value is the one in range with the right remainder. -/
theorem intOf_eq {v : List Octet} {z k : Int} (hne : v ≠ [])
    (hval : (natOf v : Int) = z + k * 256 ^ v.length)
    (hlo : -128 * (256 : Int) ^ (v.length - 1) ≤ z) (hhi : z < 128 * (256 : Int) ^ (v.length - 1)) :
    intOf v = z := by
  cases v with
  | nil => exact absurd rfl hne
  | cons x v =>
    obtain ⟨hlo', hhi'⟩ := intOf_range (x := x) (v := v)
    simp only [List.length_cons, Nat.add_sub_cancel, pow_succ] at hlo hhi hval
    have hpos : (0 : Int) < 256 ^ v.length := by positivity
    obtain ⟨j, hj⟩ : ∃ j : Int, intOf (x :: v) = z + j * (256 ^ v.length * 256) := by
      unfold intOf
      rw [hval, List.length_cons, pow_succ]
      split
      · exact ⟨k - 1, by ring⟩
      · exact ⟨k, by ring⟩
    generalize (256 : Int) ^ v.length = p at *
    have hj0 : j = 0 := by
      by_contra hne
      rcases lt_or_gt_of_ne hne with hneg | hpos'
      · have hle : j * (p * 256) ≤ -1 * (p * 256) := by
          apply mul_le_mul_of_nonneg_right _ (by linarith)
          omega
        linarith
      · have hge : 1 * (p * 256) ≤ j * (p * 256) := by
          apply mul_le_mul_of_nonneg_right _ (by linarith)
          omega
        linarith
    rw [hj, hj0]
    ring

theorem isNegative_cons (x : Octet) (v : List Octet) :
    isNegative (x :: v) = decide (0x7f < x.toNat) := rfl

/-- A fill octet does not change the value. -/
theorem intOf_fill (v : List Octet) : intOf (fill v :: v) = intOf v := by
  have hneg : isNegative (fill v :: v) = isNegative v := by
    unfold fill
    cases isNegative v with
    | true => rfl
    | false => rfl
  unfold intOf
  rw [hneg, natOf, List.length_cons, pow_succ]
  unfold fill
  cases isNegative v with
  | true =>
    simp only [if_true]
    push_cast
    ring
  | false =>
    simp only [Bool.false_eq_true, if_false]
    push_cast
    ring

theorem natOf_eq (v : List Octet) :
    (natOf v : Int) = intOf v + (if isNegative v then 1 else 0) * 256 ^ v.length := by
  unfold intOf
  split
  · ring
  · ring

theorem length_pos {v : List Octet} (h : v ≠ []) : 1 ≤ v.length :=
  List.length_pos_iff.mpr h

/-- What makes a string shortest: its first octet is needed. -/
theorem shortest_of_needed {x y : Octet} {v : List Octet} (h : x ≠ fill (y :: v)) :
    Shortest (x :: y :: v) := by
  refine ⟨List.cons_ne_nil _ _, fun w hw heq => ?_⟩
  by_contra hlt
  cases w with
  | nil => exact hw rfl
  | cons z w =>
    simp only [List.length_cons] at hlt
    obtain ⟨hlo, hhi⟩ := intOf_range (x := z) (v := w)
    have hle : w.length ≤ v.length := by omega
    have hpow : (256 : Int) ^ w.length ≤ 256 ^ v.length := pow_le_pow_right₀ (by norm_num) hle
    have hv : (natOf v : Int) < 256 ^ v.length := by exact_mod_cast natOf_lt v
    have h0 : (0 : Int) ≤ natOf v := Int.natCast_nonneg _
    have hx := x.isLt
    have hy := y.isLt
    have hpos : (0 : Int) < 256 ^ v.length := by positivity
    rw [heq] at hlo hhi
    simp only [intOf, natOf, isNegative, List.length_cons, decide_eq_true_eq, pow_succ,
      Nat.cast_add, Nat.cast_mul, Nat.cast_pow, Nat.cast_ofNat] at hlo hhi
    have hxf : (x.toNat = 255 → y.toNat ≤ 127) ∧ (x.toNat = 0 → 127 < y.toNat) := by
      constructor
      · intro hx255
        by_contra hy127
        apply h
        simp only [fill, isNegative, decide_eq_true_eq]
        rw [if_pos (by omega)]
        exact BitVec.eq_of_toNat_eq hx255
      · intro hx0
        by_contra hy127
        apply h
        simp only [fill, isNegative, decide_eq_true_eq]
        rw [if_neg hy127]
        exact BitVec.eq_of_toNat_eq hx0
    generalize (256 : Int) ^ v.length = p at *
    generalize (256 : Int) ^ w.length = q at *
    have hyp : (0 : Int) ≤ y.toNat * p := by positivity
    have hyp' : (y.toNat : Int) * p ≤ 255 * p := by
      apply mul_le_mul_of_nonneg_right _ hpos.le
      exact_mod_cast Nat.le_of_lt_succ hy
    split at hlo
    · rename_i hneg
      rcases Nat.lt_or_ge x.toNat 255 with hx254 | hx255
      · have hxp : (x.toNat : Int) * (p * 256) ≤ 254 * (p * 256) := by
          apply mul_le_mul_of_nonneg_right _ (by linarith)
          exact_mod_cast Nat.le_of_lt_succ hx254
        linarith
      · have heq255 : x.toNat = 255 := by omega
        have hyq : (y.toNat : Int) * p ≤ 127 * p := by
          apply mul_le_mul_of_nonneg_right _ hpos.le
          exact_mod_cast hxf.1 heq255
        rw [heq255] at hlo
        push_cast at hlo
        linarith
    · rename_i hneg
      rw [if_neg hneg] at hhi
      rcases Nat.eq_zero_or_pos x.toNat with hx0 | hxpos
      · have hyq : (128 : Int) * p ≤ y.toNat * p := by
          apply mul_le_mul_of_nonneg_right _ hpos.le
          exact_mod_cast hxf.2 hx0
        rw [hx0] at hhi
        push_cast at hhi
        linarith
      · have hxp : (1 : Int) * (p * 256) ≤ x.toNat * (p * 256) := by
          apply mul_le_mul_of_nonneg_right _ (by linarith)
          exact_mod_cast hxpos
        linarith

theorem shortest_single (x : Octet) : Shortest [x] :=
  ⟨List.cons_ne_nil _ _, fun _ hw _ => length_pos hw⟩

end SdkTools.Lib.TwosComplement
