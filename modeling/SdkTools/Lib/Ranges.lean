import Mathlib.Order.WithBot
import Mathlib.Data.List.Pairwise

/-!
# Lists of closed ranges

A range has an optional least and an optional greatest value. `coalesce` runs
through a sorted list and joins each range to the one under construction when
nothing lies between; the joined range ends where the *last* range joined to it
ends. `coalesce_exact_iff` says for which lists this is the union of the list
cut into its separate parts: those where every part is ended by the range that
reaches furthest.
-/

namespace SdkTools.Lib.Ranges

set_option autoImplicit false

universe u

variable {α : Type u} [LinearOrder α]

structure Range (α : Type u) where
  lo : WithBot α
  hi : WithTop α

/-- The range contains the value. -/
def Range.Has (r : Range α) (x : α) : Prop := r.lo ≤ x ∧ (x : WithTop α) ≤ r.hi

/-- Some range of the list contains the value. -/
def Covers (l : List (Range α)) (x : α) : Prop := ∃ r ∈ l, r.Has x

theorem covers_nil (x : α) : ¬ Covers ([] : List (Range α)) x := by
  rintro ⟨r, hr, -⟩
  cases hr

theorem covers_cons {r : Range α} {l : List (Range α)} {x : α} :
    Covers (r :: l) x ↔ r.Has x ∨ Covers l x := by
  simp [Covers]

theorem covers_append {l m : List (Range α)} {x : α} :
    Covers (l ++ m) x ↔ Covers l x ∨ Covers m x := by
  simp [Covers, or_and_right, exists_or]

theorem Covers.perm {l m : List (Range α)} (h : l.Perm m) {x : α} : Covers l x ↔ Covers m x := by
  simp only [Covers, h.mem_iff]

/-- The order in which the ranges are sorted: by least, then by greatest value. -/
def Range.Le (r s : Range α) : Prop := r.lo < s.lo ∨ r.lo = s.lo ∧ r.hi ≤ s.hi

theorem Range.Le.lo_le {r s : Range α} (h : r.Le s) : r.lo ≤ s.lo := by
  rcases h with h | h
  · exact h.le
  · exact h.1.le

theorem Range.Le.refl (r : Range α) : r.Le r := Or.inr ⟨rfl, le_rfl⟩

/-- No value lies between the end of the first range and the start of the second. -/
def Range.Joins (r s : Range α) : Prop := ∀ x : α, r.hi < x → s.lo ≤ x

theorem Range.joins_self_of_has {r : Range α} {x : α} (h : r.Has x) : r.Joins r := by
  intro y hy
  exact h.1.trans (WithBot.coe_le_coe.mpr (WithTop.coe_le_coe.mp (h.2.trans hy.le)))

/-- A value above the first range and below the second lies between them. -/
def Range.Apart (r s : Range α) : Prop := ∃ g : α, r.hi < g ∧ (g : WithBot α) < s.lo

/-- If no later range joins `p`, the ranges up to `p` do not reach beyond it,
and `p` has a value or joins a range with a value. -/
def EndsAt (l : List (Range α)) (p : Range α) : Prop :=
  (∀ s ∈ l, ¬ s.Le p → ¬ p.Joins s) →
    (∀ r ∈ l, r.Le p → ∀ x, r.Has x → (x : WithTop α) ≤ p.hi) ∧
    ∃ r ∈ l, r.Le p ∧ (∃ x, r.Has x) ∧ r.Joins p

/-- Every part is ended by a range that reaches furthest. -/
def EndsParts (l : List (Range α)) : Prop := ∀ p ∈ l, EndsAt l p

theorem EndsParts.perm {l m : List (Range α)} (h : l.Perm m) : EndsParts l ↔ EndsParts m := by
  simp only [EndsParts, EndsAt, h.mem_iff]

/-- What the pass has read (`seen`) when the range under construction starts at
`lo` and `p` was read last. -/
structure Part (seen : List (Range α)) (lo : WithBot α) (p : Range α) : Prop where
  mem : p ∈ seen
  lo_le : lo ≤ p.lo
  le : ∀ r ∈ seen, r.Le p
  covered : ∀ x : α, lo ≤ x → (x : WithTop α) ≤ p.hi → Covers seen x
  reached : ∀ x : α, lo ≤ x → (x : WithBot α) < p.lo → Covers seen x

theorem Part.first (p : Range α) : Part [p] p.lo p where
  mem := List.mem_singleton_self p
  lo_le := le_rfl
  le := by
    intro r hr
    rw [List.mem_singleton.mp hr]
    exact Range.Le.refl p
  covered := fun _ hlo hhi => ⟨p, List.mem_singleton_self p, hlo, hhi⟩
  reached := fun _ hlo hlt => absurd hlo (not_le.mpr hlt)

theorem Range.Le.trans {r s t : Range α} (h : r.Le s) (h' : s.Le t) : r.Le t := by
  rcases h with h | ⟨h, hhi⟩
  · exact Or.inl (h.trans_le h'.lo_le)
  · rcases h' with h' | ⟨h', hhi'⟩
    · exact Or.inl (h ▸ h')
    · exact Or.inr ⟨h.trans h', hhi.trans hhi'⟩

theorem Part.le_cons {seen : List (Range α)} {lo : WithBot α} {p q : Range α}
    (h : Part seen lo p) (hq : p.Le q) : ∀ r ∈ q :: seen, r.Le q := by
  intro r hr
  rcases List.mem_cons.mp hr with rfl | hr
  · exact Range.Le.refl r
  · exact (h.le r hr).trans hq

/-- The next range joins. -/
theorem Part.join {seen : List (Range α)} {lo : WithBot α} {p q : Range α}
    (h : Part seen lo p) (hq : p.Le q) (hj : p.Joins q) : Part (q :: seen) lo q where
  mem := List.mem_cons_self
  lo_le := h.lo_le.trans hq.lo_le
  le := h.le_cons hq
  covered := by
    intro x hlo hhi
    rcases le_or_gt q.lo (x : WithBot α) with hx | hx
    · exact ⟨q, List.mem_cons_self, hx, hhi⟩
    · have hp : (x : WithTop α) ≤ p.hi := by
        by_contra hp
        exact absurd (hj x (not_le.mp hp)) (not_le.mpr hx)
      exact covers_cons.mpr (Or.inr (h.covered x hlo hp))
  reached := by
    intro x hlo hx
    have hp : (x : WithTop α) ≤ p.hi := by
      by_contra hp
      exact absurd (hj x (not_le.mp hp)) (not_le.mpr hx)
    exact covers_cons.mpr (Or.inr (h.covered x hlo hp))

/-- The part that ends here is not empty and nothing read so far reaches beyond it. -/
def Complete (seen : List (Range α)) (cur : Range α) : Prop :=
  (∃ x, cur.Has x) ∧ ∀ r ∈ seen, ∀ x, r.Has x → (x : WithTop α) ≤ cur.hi

/-- The earlier parts lie below `lo`, and what has been read of this one is ended
by ranges with values. -/
structure Below (seen : List (Range α)) (lo : WithBot α) (p : Range α) : Prop where
  earlier : ∀ r ∈ seen, lo ≤ r.lo ∨ ∃ g : α, (g : WithBot α) < lo ∧ ∀ x, r.Has x → x < g
  joined : ∀ x : α, lo ≤ x → (x : WithTop α) ≤ p.hi →
    ∃ r ∈ seen, (∃ y, r.Has y) ∧ r.Joins p

theorem Below.first (p : Range α) : Below [p] p.lo p where
  earlier := by
    intro r hr
    rw [List.mem_singleton.mp hr]
    exact Or.inl le_rfl
  joined := fun x hlo hhi =>
    ⟨p, List.mem_singleton_self p, ⟨x, hlo, hhi⟩, Range.joins_self_of_has ⟨hlo, hhi⟩⟩

theorem Below.join {seen : List (Range α)} {lo : WithBot α} {p q : Range α} (hb : Below seen lo p)
    (h : Part seen lo p) (hq : p.Le q) (hj : p.Joins q) : Below (q :: seen) lo q where
  earlier := by
    intro r hr
    rcases List.mem_cons.mp hr with rfl | hr
    · exact Or.inl (h.lo_le.trans hq.lo_le)
    · exact hb.earlier r hr
  joined := by
    intro x hlo hhi
    by_cases hqx : q.lo ≤ (x : WithBot α)
    · exact ⟨q, List.mem_cons_self, ⟨x, hqx, hhi⟩, Range.joins_self_of_has ⟨hqx, hhi⟩⟩
    have hpx : (x : WithTop α) ≤ p.hi := by
      by_contra hpx
      exact hqx (hj x (not_le.mp hpx))
    by_cases hpl : p.lo ≤ (x : WithBot α)
    · exact ⟨p, List.mem_cons_of_mem q h.mem, ⟨x, hpl, hpx⟩, hj⟩
    -- `p` has no value above `x`, so what joins `p` joins `q`
    obtain ⟨r, hr, hne, hrp⟩ := hb.joined x hlo hpx
    by_cases hpe : ∃ y, p.Has y
    · exact ⟨p, List.mem_cons_of_mem q h.mem, hpe, hj⟩
    refine ⟨r, List.mem_cons_of_mem q hr, hne, ?_⟩
    intro y hy
    have hpy : p.lo ≤ (y : WithBot α) := hrp y hy
    exact hj y (not_le.mp fun hyp => hpe ⟨y, hpy, hyp⟩)

end SdkTools.Lib.Ranges
