import SdkTools.Asn1.ValueAlgebra
import Mathlib.Data.List.Sort

/-!
# The reduced value sets

When the list that `ReduceValueConstraints` leaves is the set of the spec.
-/

namespace SdkTools.Asn1

set_option autoImplicit false

open SdkTools.Lib.Ranges

section Meaning

theorem covers_singleValue (k : Kind) (a : Bool) (v : k.Value) (h : k = .integer ∨ a = true)
    (x : Item k a) (b : k.Bound) (hb : valueOf k a x = some b) :
    Covers ((singleValueConstraints k v a).map ValueConstraint.norm) b ↔ admitsSingle k a v x := by
  cases k with
  | integer =>
    have hcov : Covers ((singleValueConstraints .integer v a).map ValueConstraint.norm) b ↔ b = v := by
      simp only [singleValueConstraints, List.map_cons, List.map_nil, covers_cons]
      simp only [Range.Has, ValueConstraint.norm, LowerEndPoint.norm, UpperEndPoint.norm,
        WithBot.coe_le_coe, WithTop.coe_le_coe, covers_nil, or_false]
      exact (and_comm.trans le_antisymm_iff.symm)
    rw [hcov]
    cases a with
    | false =>
      rw [← Option.some.inj hb]
      exact Iff.rfl
    | true =>
      rw [← Option.some.inj hb]
      exact Iff.rfl
  | string =>
    cases a with
    | false => simp at h
    | true =>
      rw [← Option.some.inj hb]
      simp only [Covers, singleValueConstraints, List.map_map, List.mem_map, admitsSingle]
      constructor
      · rintro ⟨r, ⟨c, hc, rfl⟩, hx⟩
        have hcx : c = x :=
          le_antisymm (WithBot.coe_le_coe.mp hx.1) (WithTop.coe_le_coe.mp hx.2)
        exact hcx ▸ hc
      · intro hx
        exact ⟨_, ⟨x, hx, rfl⟩, le_rfl, le_rfl⟩
  | other => exact b.elim

mutual

theorem Constraint.covers_pieces {k : Kind} : (c : Constraint k) → (a : Bool) → c.OnlyValues a →
    c.NoWrap a → (x : Item k a) → (b : k.Bound) → valueOf k a x = some b →
    (Covers (c.pieces a) b ↔ c.Admits a x)
  | .none, _, h, _, _, _, _ => by simp [Constraint.OnlyValues] at h
  | .unextended root, a, h, hn, x, b, hb => by
    simp only [Constraint.OnlyValues] at h
    simp only [Constraint.NoWrap] at hn
    simp only [Constraint.pieces, Constraint.Admits]
    exact root.covers_pieces a h hn x b hb
  | .extendable _, _, h, _, _, _, _ => by simp [Constraint.OnlyValues] at h
  | .extended _ _, _, h, _, _, _, _ => by simp [Constraint.OnlyValues] at h

/-- The pieces are the set of the spec. -/
theorem ElementSetSpec.covers_pieces {k : Kind} : (e : ElementSetSpec k) → (a : Bool) →
    e.OnlyValues a → e.NoWrap a → (x : Item k a) → (b : k.Bound) → valueOf k a x = some b →
    (Covers (e.pieces a) b ↔ e.Admits a x)
  | .intersection e₁ e₂, a, h, hn, x, b, hb => by
    simp only [ElementSetSpec.OnlyValues] at h
    simp only [ElementSetSpec.NoWrap] at hn
    simp only [ElementSetSpec.pieces, ElementSetSpec.Admits]
    rw [covers_meetAll, e₁.covers_pieces a h.1 hn.1 x b hb, e₂.covers_pieces a h.2 hn.2 x b hb]
  | .union e₁ e₂, a, h, hn, x, b, hb => by
    simp only [ElementSetSpec.OnlyValues] at h
    simp only [ElementSetSpec.NoWrap] at hn
    simp only [ElementSetSpec.pieces, ElementSetSpec.Admits]
    rw [covers_append, e₁.covers_pieces a h.1 hn.1 x b hb, e₂.covers_pieces a h.2 hn.2 x b hb]
  | .allExcept e, a, h, hn, x, b, hb => by
    simp only [ElementSetSpec.OnlyValues] at h
    simp only [ElementSetSpec.NoWrap] at hn
    simp only [ElementSetSpec.pieces, ElementSetSpec.Admits]
    rw [covers_complement hn.2, e.covers_pieces a h hn.1 x b hb]
  | .exclusion e₁ e₂, a, h, hn, x, b, hb => by
    simp only [ElementSetSpec.OnlyValues] at h
    simp only [ElementSetSpec.NoWrap] at hn
    simp only [ElementSetSpec.pieces, ElementSetSpec.Admits]
    rw [covers_meetAll, covers_complement hn.2.2, e₁.covers_pieces a h.1 hn.1 x b hb,
      e₂.covers_pieces a h.2 hn.2.1 x b hb]
  | .subtypeElement s, a, h, hn, x, b, hb => by
    simp only [ElementSetSpec.OnlyValues] at h
    simp only [ElementSetSpec.NoWrap] at hn
    simp only [ElementSetSpec.pieces, ElementSetSpec.Admits]
    exact s.covers_pieces a h hn x b hb

theorem SubtypeElement.covers_pieces {k : Kind} : (s : SubtypeElement k) → (a : Bool) →
    s.OnlyValues a → s.NoWrap a → (x : Item k a) → (b : k.Bound) → valueOf k a x = some b →
    (Covers (s.pieces a) b ↔ s.Admits a x)
  | .valueRange lower upper, a, _, hn, x, b, hb => by
    simp only [SubtypeElement.NoWrap] at hn
    have hhas := hn.has_iff b
    simp only [SubtypeElement.pieces, SubtypeElement.Admits, covers_cons, covers_nil, or_false, hb,
      Option.some.injEq, exists_eq_left']
    exact hhas.symm
  | .singleValue v, a, h, _, x, b, hb => by
    simp only [SubtypeElement.OnlyValues] at h
    simp only [SubtypeElement.pieces, SubtypeElement.Admits]
    exact covers_singleValue k a v h x b hb
  | .size _, _, h, _, _, _, _ => by simp [SubtypeElement.OnlyValues] at h
  | .permittedAlphabet _, _, h, _, _, _, _ => by simp [SubtypeElement.OnlyValues] at h
  | .containedSubtype c, a, h, hn, x, b, hb => by
    simp only [SubtypeElement.OnlyValues] at h
    simp only [SubtypeElement.NoWrap] at hn
    obtain ⟨rfl, h⟩ := h
    simp only [SubtypeElement.pieces, SubtypeElement.Admits, lift]
    exact c.covers_pieces false h hn x b hb
  | .notVisible _, _, h, _, _, _, _ => by simp [SubtypeElement.OnlyValues] at h
  | .elementSetSpec e, a, h, hn, x, b, hb => by
    simp only [SubtypeElement.OnlyValues] at h
    simp only [SubtypeElement.NoWrap] at hn
    simp only [SubtypeElement.pieces, SubtypeElement.Admits]
    exact e.covers_pieces a h hn x b hb

end

mutual

theorem Constraint.noWrap {k : Kind} : (c : Constraint k) → (a : Bool) →
    (∀ v : k.Bound, ¬ IsMin v) → (∀ v : k.Bound, ¬ IsMax v) → c.NoWrap a
  | .none, _, _, _ => by simp [Constraint.NoWrap]
  | .unextended root, a, hmin, hmax => by
    simp only [Constraint.NoWrap]
    exact root.noWrap a hmin hmax
  | .extendable _, _, _, _ => by simp [Constraint.NoWrap]
  | .extended _ _, _, _, _ => by simp [Constraint.NoWrap]

/-- Values without end do not wrap. -/
theorem ElementSetSpec.noWrap {k : Kind} : (e : ElementSetSpec k) → (a : Bool) →
    (∀ v : k.Bound, ¬ IsMin v) → (∀ v : k.Bound, ¬ IsMax v) → e.NoWrap a
  | .intersection e₁ e₂, a, hmin, hmax => by
    simp only [ElementSetSpec.NoWrap]
    exact ⟨e₁.noWrap a hmin hmax, e₂.noWrap a hmin hmax⟩
  | .union e₁ e₂, a, hmin, hmax => by
    simp only [ElementSetSpec.NoWrap]
    exact ⟨e₁.noWrap a hmin hmax, e₂.noWrap a hmin hmax⟩
  | .allExcept e, a, hmin, hmax => by
    simp only [ElementSetSpec.NoWrap]
    exact ⟨e.noWrap a hmin hmax, fun r _ => ⟨fun v _ => hmin v, fun v _ => hmax v⟩⟩
  | .exclusion e₁ e₂, a, hmin, hmax => by
    simp only [ElementSetSpec.NoWrap]
    exact ⟨e₁.noWrap a hmin hmax, e₂.noWrap a hmin hmax,
      fun r _ => ⟨fun v _ => hmin v, fun v _ => hmax v⟩⟩
  | .subtypeElement s, a, hmin, hmax => by
    simp only [ElementSetSpec.NoWrap]
    exact s.noWrap a hmin hmax

theorem SubtypeElement.noWrap {k : Kind} : (s : SubtypeElement k) → (a : Bool) →
    (∀ v : k.Bound, ¬ IsMin v) → (∀ v : k.Bound, ¬ IsMax v) → s.NoWrap a
  | .valueRange _ _, _, hmin, hmax => by
    simp only [SubtypeElement.NoWrap]
    exact ⟨fun v _ => hmax v, fun v _ => hmin v⟩
  | .containedSubtype c, a, hmin, hmax => by
    simp only [SubtypeElement.NoWrap]
    exact c.noWrap a hmin hmax
  | .elementSetSpec e, a, hmin, hmax => by
    simp only [SubtypeElement.NoWrap]
    exact e.noWrap a hmin hmax
  | .singleValue _, _, _, _ => by simp [SubtypeElement.NoWrap]
  | .size _, _, _, _ => by simp [SubtypeElement.NoWrap]
  | .permittedAlphabet _, _, _, _ => by simp [SubtypeElement.NoWrap]
  | .notVisible _, _, _, _ => by simp [SubtypeElement.NoWrap]

end

end Meaning

section Reduce

variable {α : Type} [BoundValue α]

theorem Range.Le.total (r s : Range α) : r.Le s ∨ s.Le r := by
  rcases lt_trichotomy r.lo s.lo with h | h | h
  · exact Or.inl (Or.inl h)
  · rcases le_total r.hi s.hi with h' | h'
    · exact Or.inl (Or.inr ⟨h, h'⟩)
    · exact Or.inr (Or.inr ⟨h.symm, h'⟩)
  · exact Or.inr (Or.inl h)

end Reduce

theorem int_not_isMin (v : Int) : ¬ IsMin v := by
  intro h
  have hle : v ≤ v - 1 := h (by omega)
  omega

theorem int_not_isMax (v : Int) : ¬ IsMax v := by
  intro h
  have hle : v + 1 ≤ v := h (by omega)
  omega

end SdkTools.Asn1
