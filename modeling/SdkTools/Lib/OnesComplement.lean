import Mathlib.Data.Nat.ModEq

/-!
# Ones' complement sums

Sums in base `B` whose carries are added back in. Such a sum is the sum modulo `B - 1`,
where zero has two representatives; the larger one stands for every sum but the empty one.
-/

namespace SdkTools.Lib

set_option autoImplicit false

/-- A sum with its carries out of base `B` added back in. -/
def endAround (B s : Nat) : Nat := s % B + s / B

theorem endAround_modEq {B m : Nat} (h : B ≡ 1 [MOD m]) (s : Nat) : endAround B s ≡ s [MOD m] := by
  have hcarry : s / B * 1 ≡ s / B * B [MOD m] := h.symm.mul_left (s / B)
  rw [Nat.mul_one] at hcarry
  have hsum : s % B + s / B ≡ s % B + s / B * B [MOD m] := hcarry.add_left (s % B)
  rw [Nat.mod_add_div'] at hsum
  exact hsum

theorem endAround_eq_zero {B s : Nat} : endAround B s = 0 ↔ s = 0 := by
  constructor
  · intro h
    have hmod : s % B = 0 := Nat.eq_zero_of_add_eq_zero_right h
    have hdiv : s / B = 0 := Nat.eq_zero_of_add_eq_zero_left h
    have hs := Nat.mod_add_div s B
    rw [hmod, hdiv] at hs
    exact hs.symm
  · rintro rfl
    simp [endAround]

/-- Two digits and no more give a digit: there is no second carry. -/
theorem endAround_lt {B s : Nat} (h : s + 2 ≤ 2 * B) : endAround B s < B := by
  unfold endAround
  cases Nat.lt_or_ge s B with
  | inl hlt =>
    rw [Nat.mod_eq_of_lt hlt, Nat.div_eq_of_lt hlt]
    exact hlt
  | inr hge =>
    have hdiv : s / B = 1 := Nat.div_eq_of_lt_le (by omega) (by omega)
    have hmod := Nat.mod_add_div s B
    rw [hdiv] at hmod ⊢
    omega

/-- `a` stands for the sum `t`: they are congruent, and only no sum at all gives zero. -/
structure Stands (m a t : Nat) : Prop where
  modEq : a ≡ t [MOD m]
  zero : a = 0 ↔ t = 0

namespace Stands

variable {m a b t u : Nat}

theorem refl (m t : Nat) : Stands m t t := ⟨.rfl, .rfl⟩

theorem add (ha : Stands m a t) (hb : Stands m b u) : Stands m (a + b) (t + u) := by
  refine ⟨ha.modEq.add hb.modEq, ?_⟩
  rw [Nat.add_eq_zero_iff, Nat.add_eq_zero_iff, ha.zero, hb.zero]

theorem endAround {B : Nat} (ha : Stands m a t) (h : B ≡ 1 [MOD m]) :
    Stands m (endAround B a) t :=
  ⟨(endAround_modEq h a).trans ha.modEq, endAround_eq_zero.trans ha.zero⟩

/-- A sum has one representative up to `m`. -/
theorem unique (ha : Stands m a t) (hb : Stands m b t) (hm : 0 < m) (hal : a ≤ m) (hbl : b ≤ m) :
    a = b := by
  have hmod : a % m = b % m := ha.modEq.trans hb.modEq.symm
  have hzero : a = 0 ↔ b = 0 := ha.zero.trans hb.zero.symm
  cases Nat.lt_or_eq_of_le hal with
  | inl halt =>
    cases Nat.lt_or_eq_of_le hbl with
    | inl hblt => rwa [Nat.mod_eq_of_lt halt, Nat.mod_eq_of_lt hblt] at hmod
    | inr hbm =>
      rw [Nat.mod_eq_of_lt halt, hbm, Nat.mod_self] at hmod
      have hb0 := hzero.mp hmod
      omega
  | inr ham =>
    cases Nat.lt_or_eq_of_le hbl with
    | inl hblt =>
      rw [Nat.mod_eq_of_lt hblt, ham, Nat.mod_self] at hmod
      have ha0 := hzero.mpr hmod.symm
      omega
    | inr hbm => rw [ham, hbm]

end Stands

/-- The ones' complement sum of digits in base `B`. -/
def onesSum (B : Nat) (ws : List Nat) : Nat := ws.foldl (fun a w => endAround B (a + w)) 0

theorem foldl_stands {B m a t : Nat} (h : B ≡ 1 [MOD m]) (ws : List Nat) (ha : Stands m a t) :
    Stands m (ws.foldl (fun a w => endAround B (a + w)) a) (t + ws.sum) := by
  induction ws generalizing a t with
  | nil => exact ha
  | cons w ws ih =>
    rw [List.foldl_cons, List.sum_cons, ← Nat.add_assoc]
    exact ih ((ha.add (.refl m w)).endAround h)

theorem onesSum_stands {B m : Nat} (h : B ≡ 1 [MOD m]) (ws : List Nat) :
    Stands m (onesSum B ws) ws.sum := by
  have hsum := foldl_stands h ws (.refl m 0)
  rw [Nat.zero_add] at hsum
  exact hsum

theorem foldl_lt {B a : Nat} (ws : List Nat) (hws : ∀ w ∈ ws, w < B) (ha : a < B) :
    ws.foldl (fun a w => endAround B (a + w)) a < B := by
  induction ws generalizing a with
  | nil => exact ha
  | cons w ws ih =>
    obtain ⟨hw, hrest⟩ := List.forall_mem_cons.mp hws
    exact ih hrest (endAround_lt (by omega))

theorem onesSum_lt {B : Nat} (hB : 0 < B) (ws : List Nat) (hws : ∀ w ∈ ws, w < B) :
    onesSum B ws < B := foldl_lt ws hws hB

end SdkTools.Lib
