import Mathlib.Data.List.Basic
import Mathlib.Data.List.Pairwise

/-!
# Lists of half-open intervals

An element `a` occupies `[lo a, hi a)`. `Ordered` says that the list is in
address order and that no two of its elements meet; the lemmas are what a
search structure over such a list needs: uniqueness of the element at an
address, insertion into a gap, removal, and growth of one element to the right.
-/

namespace SdkTools.Lib.Interval

set_option autoImplicit false

universe u

variable {α : Type u} {lo hi : α → Nat}

/-- In order and pairwise disjoint. -/
def Ordered (lo hi : α → Nat) (l : List α) : Prop := l.Pairwise fun a b => hi a ≤ lo b

/-- `a` contains the address `x`. -/
def Has (lo hi : α → Nat) (a : α) (x : Nat) : Prop := lo a ≤ x ∧ x < hi a

instance (lo hi : α → Nat) (a : α) (x : Nat) : Decidable (Has lo hi a x) :=
  inferInstanceAs (Decidable (_ ∧ _))

theorem Ordered.nil : Ordered lo hi ([] : List α) := List.Pairwise.nil

theorem ordered_append {xs ys : List α} : Ordered lo hi (xs ++ ys) ↔
    Ordered lo hi xs ∧ Ordered lo hi ys ∧ ∀ a ∈ xs, ∀ b ∈ ys, hi a ≤ lo b :=
  List.pairwise_append

theorem ordered_cons {a : α} {l : List α} : Ordered lo hi (a :: l) ↔
    (∀ b ∈ l, hi a ≤ lo b) ∧ Ordered lo hi l := List.pairwise_cons

theorem Ordered.sublist {l l' : List α} (h : Ordered lo hi l) (hs : l'.Sublist l) :
    Ordered lo hi l' := List.Pairwise.sublist hs h

/-- Two elements of an ordered list are the same or lie one after the other. -/
theorem Ordered.trichotomy {l : List α} (h : Ordered lo hi l) {a b : α}
    (ha : a ∈ l) (hb : b ∈ l) : a = b ∨ hi a ≤ lo b ∨ hi b ≤ lo a := by
  induction l with
  | nil => simp at ha
  | cons c l ih =>
    obtain ⟨hc, hl⟩ := ordered_cons.mp h
    rcases List.mem_cons.mp ha with rfl | ha'
    · rcases List.mem_cons.mp hb with rfl | hb'
      · exact Or.inl rfl
      · exact Or.inr (Or.inl (hc b hb'))
    · rcases List.mem_cons.mp hb with rfl | hb'
      · exact Or.inr (Or.inr (hc a ha'))
      · exact ih hl ha' hb'

theorem Ordered.unique {l : List α} (h : Ordered lo hi l) {a b : α} {x : Nat}
    (ha : a ∈ l) (hb : b ∈ l) (hax : Has lo hi a x) (hbx : Has lo hi b x) : a = b := by
  rcases h.trichotomy ha hb with he | hlt | hlt
  · exact he
  · have := hax.2; have := hbx.1; omega
  · have := hbx.2; have := hax.1; omega

/-- Filling a gap keeps the list ordered. -/
theorem Ordered.insert {xs ys : List α} {n : α} (h : Ordered lo hi (xs ++ ys))
    (hx : ∀ a ∈ xs, hi a ≤ lo n) (hy : ∀ b ∈ ys, hi n ≤ lo b) :
    Ordered lo hi (xs ++ n :: ys) := by
  obtain ⟨hxs, hys, hxy⟩ := ordered_append.mp h
  refine ordered_append.mpr ⟨hxs, ordered_cons.mpr ⟨hy, hys⟩, ?_⟩
  intro a ha b hb
  rcases List.mem_cons.mp hb with rfl | hb
  · exact hx a ha
  · exact hxy a ha b hb

/-- With no empty element, being ordered forces the lower ends to increase. -/
theorem Ordered.lo_sorted {l : List α} (h : Ordered lo hi l) (hne : ∀ a ∈ l, lo a < hi a) :
    l.Pairwise fun a b => lo a < lo b := by
  induction l with
  | nil => exact List.Pairwise.nil
  | cons c l ih =>
    obtain ⟨hc, hl⟩ := ordered_cons.mp h
    refine List.pairwise_cons.mpr ⟨?_, ih hl fun a ha => hne a (List.mem_cons_of_mem c ha)⟩
    intro b hb
    exact Nat.lt_of_lt_of_le (hne c List.mem_cons_self) (hc b hb)

end SdkTools.Lib.Interval
