import SdkTools.Asn1.ValueSets

/-!
# The algebra of value constraints

The four operations on lists of value constraints are those on the lists of
ranges between adjusted end points, and the ranges are the set of the spec as
long as no end point wraps.
-/

namespace SdkTools.Asn1

set_option autoImplicit false

open SdkTools.Lib.Ranges

universe u

section Algebra

variable {α : Type u} [BoundValue α]

@[simp] theorem meetAll_nil_left (l : List (Range α)) : meetAll [] l = [] := rfl

@[simp] theorem meetAll_nil_right (l : List (Range α)) : meetAll l [] = [] := by
  simp [meetAll]

theorem meet_has {r s : Range α} {x : α} : (meet r s).Has x ↔ r.Has x ∧ s.Has x := by
  simp only [meet, Range.Has, sup_le_iff, le_inf_iff]
  exact and_and_and_comm

theorem covers_meetAll {l m : List (Range α)} {x : α} :
    Covers (meetAll l m) x ↔ Covers l x ∧ Covers m x := by
  simp only [Covers, meetAll, List.mem_flatMap, List.mem_filterMap]
  constructor
  · rintro ⟨t, ⟨r, hr, s, hs, ht⟩, hx⟩
    split at ht
    · rw [← Option.some.inj ht, meet_has] at hx
      exact ⟨⟨r, hr, hx.1⟩, s, hs, hx.2⟩
    · cases ht
  · rintro ⟨⟨r, hr, hrx⟩, s, hs, hsx⟩
    have hx : (meet r s).Has x := meet_has.mpr ⟨hrx, hsx⟩
    exact ⟨meet r s, ⟨r, hr, s, hs, if_pos (meets_of_has hx)⟩, hx⟩

theorem covers_below_above {r : Range α} (h : Bounded r) {x : α} :
    Covers (below r.lo ++ above r.hi) x ↔ ¬ r.Has x := by
  have hlo : Covers (below r.lo) x ↔ ¬ r.lo ≤ x := by
    cases hr : r.lo with
    | bot => simp [below, Covers]
    | coe v =>
      have hv := BoundValue.lt_iff_le_dec x v (h.1 v hr)
      simp [below, Covers, Range.Has, ← hv]
  have hhi : Covers (above r.hi) x ↔ ¬ (x : WithTop α) ≤ r.hi := by
    cases hr : r.hi with
    | top => simp [above, Covers]
    | coe v =>
      have hv := BoundValue.lt_iff_inc_le v x (h.2 v hr)
      simp [above, Covers, Range.Has, ← hv]
  rw [covers_append, hlo, hhi, Range.Has, not_and_or]

theorem covers_complement {l : List (Range α)} (h : ∀ r ∈ l, Bounded r) {x : α} :
    Covers (complement l) x ↔ ¬ Covers l x := by
  have key : ∀ (l acc : List (Range α)), (∀ r ∈ l, Bounded r) →
      (Covers (l.foldl (fun acc r => meetAll acc (below r.lo ++ above r.hi)) acc) x ↔
        Covers acc x ∧ ¬ Covers l x) := by
    intro l
    induction l with
    | nil =>
      intro acc _
      simp [covers_nil]
    | cons r l ih =>
      intro acc hl
      rw [List.foldl_cons, ih _ fun s hs => hl s (List.mem_cons_of_mem r hs), covers_meetAll,
        covers_below_above (hl r List.mem_cons_self), covers_cons, not_or, and_assoc]
  unfold complement
  rw [key l _ h]
  simp [Covers, Range.Has]

theorem norm_lower_choice (e₁ e₂ : LowerEndPoint α) :
    (if cmpLowerEndPoint e₁ e₂ ≥ 0 then e₁ else e₂).norm = e₁.norm ⊔ e₂.norm := by
  rw [cmpLowerEndPoint_eq]
  split
  · rename_i h
    exact (sup_eq_left.mpr (cmpValue_ge_zero.mp h)).symm
  · rename_i h
    exact (sup_eq_right.mpr (not_le.mp fun h' => h (cmpValue_ge_zero.mpr h')).le).symm

theorem norm_upper_choice (e₁ e₂ : UpperEndPoint α) :
    (if cmpUpperEndPoint e₁ e₂ ≤ 0 then e₁ else e₂).norm = e₁.norm ⊓ e₂.norm := by
  rw [cmpUpperEndPoint_eq]
  split
  · rename_i h
    exact (inf_eq_left.mpr (cmpValue_le_zero.mp h)).symm
  · rename_i h
    exact (inf_eq_right.mpr (not_le.mp fun h' => h (cmpValue_le_zero.mpr h')).le).symm

theorem not_empty_iff (lo : LowerEndPoint α) (up : UpperEndPoint α) :
    (lo.isMin || up.isMax || decide (cmpLowerUpperEndPoint lo up ≤ 0)) = true ↔
      Meets lo.norm up.norm := by
  rw [Bool.or_eq_true, Bool.or_eq_true, decide_eq_true_iff, cmpLowerUpperEndPoint_le_zero]
  refine ⟨?_, Or.inr⟩
  rintro ((h | h) | h)
  · cases lo with
    | min o =>
      intro v w hv
      simp [LowerEndPoint.norm] at hv
    | value v o => cases h
  · cases up with
    | max o =>
      intro v w _ hw
      simp [UpperEndPoint.norm] at hw
    | value v o => cases h
  · exact h

open Classical in
theorem map_norm_intersectValueConstraint (v₁ v₂ : ValueConstraint α) :
    (intersectValueConstraint v₁ v₂).map ValueConstraint.norm =
      if Meets (meet v₁.norm v₂.norm).lo (meet v₁.norm v₂.norm).hi
      then some (meet v₁.norm v₂.norm) else none := by
  simp only [intersectValueConstraint, not_empty_iff, norm_lower_choice, norm_upper_choice]
  split
  · rename_i h
    rw [if_pos (show Meets (meet v₁.norm v₂.norm).lo (meet v₁.norm v₂.norm).hi from h)]
    simp only [Option.map_some, ValueConstraint.norm, norm_lower_choice, norm_upper_choice, meet]
  · rename_i h
    rw [if_neg (show ¬ Meets (meet v₁.norm v₂.norm).lo (meet v₁.norm v₂.norm).hi from h)]
    rfl

theorem map_norm_intersect (val₁ val₂ : List (ValueConstraint α)) :
    (intersectValueConstraints val₁ val₂).map ValueConstraint.norm =
      meetAll (val₁.map ValueConstraint.norm) (val₂.map ValueConstraint.norm) := by
  simp only [intersectValueConstraints, meetAll, List.map_flatMap, List.flatMap_map,
    List.map_filterMap, List.filterMap_map, map_norm_intersectValueConstraint, Function.comp_def]

theorem map_norm_negateEnds (c : ValueConstraint α) :
    ((negateLower c.lower).toList ++ (negateUpper c.upper).toList).map ValueConstraint.norm =
      below c.norm.lo ++ above c.norm.hi := by
  obtain ⟨lo, up⟩ := c
  rw [List.map_append]
  congr 1
  · rcases lo with o | ⟨v, o⟩
    · rfl
    · cases o with
      | false => rfl
      | true =>
        simp [negateLower, ValueConstraint.norm, LowerEndPoint.norm, UpperEndPoint.norm, below,
          BoundValue.dec_inc]
  · rcases up with o | ⟨v, o⟩
    · rfl
    · cases o with
      | false => rfl
      | true =>
        simp [negateUpper, ValueConstraint.norm, LowerEndPoint.norm, UpperEndPoint.norm, above,
          BoundValue.inc_dec]

theorem map_norm_negateLoop (val : List (ValueConstraint α)) :
    ∀ result : List (ValueConstraint α), (negateLoop result val).map ValueConstraint.norm =
      (val.map ValueConstraint.norm).foldl
        (fun acc r => meetAll acc (below r.lo ++ above r.hi)) (result.map ValueConstraint.norm) := by
  have hnil : ∀ l : List (Range α),
      l.foldl (fun acc r => meetAll acc (below r.lo ++ above r.hi)) [] = [] := by
    intro l
    induction l with
    | nil => rfl
    | cons r l ih => exact ih
  induction val with
  | nil =>
    intro result
    rfl
  | cons c val ih =>
    intro result
    have hends := map_norm_negateEnds c
    unfold negateLoop
    rw [List.map_cons, List.foldl_cons, ← hends]
    split
    · rename_i h
      rw [h, List.map_nil, meetAll_nil_right, hnil]
    · rw [ih, map_norm_intersect]

theorem map_norm_negate (val : List (ValueConstraint α)) :
    (negateValueConstraints val).map ValueConstraint.norm =
      complement (val.map ValueConstraint.norm) :=
  map_norm_negateLoop val _

theorem map_norm_exclude (val₁ val₂ : List (ValueConstraint α)) :
    (excludeValueConstraints val₁ val₂).map ValueConstraint.norm =
      meetAll (val₁.map ValueConstraint.norm) (complement (val₂.map ValueConstraint.norm)) := by
  rw [excludeValueConstraints, map_norm_intersect, map_norm_negate]

theorem LowerEndPoint.admits_iff {e : LowerEndPoint α} (h : ∀ v, e = .value v true → ¬ IsMax v)
    (x : α) : e.Admits x ↔ e.norm ≤ x := by
  rcases e with o | ⟨v, o⟩
  · simp [LowerEndPoint.Admits, LowerEndPoint.norm]
  · cases o with
    | false => simp [LowerEndPoint.Admits, LowerEndPoint.norm]
    | true =>
      simp only [LowerEndPoint.Admits, LowerEndPoint.norm, WithBot.coe_le_coe]
      exact BoundValue.lt_iff_inc_le v x (h v rfl)

theorem UpperEndPoint.admits_iff {e : UpperEndPoint α} (h : ∀ v, e = .value v true → ¬ IsMin v)
    (x : α) : e.Admits x ↔ (x : WithTop α) ≤ e.norm := by
  rcases e with o | ⟨v, o⟩
  · simp [UpperEndPoint.Admits, UpperEndPoint.norm]
  · cases o with
    | false => simp [UpperEndPoint.Admits, UpperEndPoint.norm]
    | true =>
      simp only [UpperEndPoint.Admits, UpperEndPoint.norm, WithTop.coe_le_coe]
      exact BoundValue.lt_iff_le_dec x v (h v rfl)

theorem ValueConstraint.WrapFree.has_iff {c : ValueConstraint α} (h : c.WrapFree) (x : α) :
    c.Has x ↔ c.norm.Has x :=
  and_congr (LowerEndPoint.admits_iff h.1 x) (UpperEndPoint.admits_iff h.2 x)

theorem wrapFree_intersect {val₁ val₂ : List (ValueConstraint α)} (h₁ : ∀ c ∈ val₁, c.WrapFree)
    (h₂ : ∀ c ∈ val₂, c.WrapFree) : ∀ c ∈ intersectValueConstraints val₁ val₂, c.WrapFree := by
  intro c hc
  simp only [intersectValueConstraints, List.mem_flatMap, List.mem_filterMap] at hc
  obtain ⟨v₁, hv₁, v₂, hv₂, hc⟩ := hc
  simp only [intersectValueConstraint, Option.ite_none_right_eq_some] at hc
  rw [← Option.some.inj hc.2]
  constructor
  · intro v hv
    rcases ite_eq_or_eq (cmpLowerEndPoint v₁.lower v₂.lower ≥ 0) v₁.lower v₂.lower with h | h
    · exact (h₁ v₁ hv₁).1 v (h ▸ hv)
    · exact (h₂ v₂ hv₂).1 v (h ▸ hv)
  · intro v hv
    rcases ite_eq_or_eq (cmpUpperEndPoint v₁.upper v₂.upper ≤ 0) v₁.upper v₂.upper with h | h
    · exact (h₁ v₁ hv₁).2 v (h ▸ hv)
    · exact (h₂ v₂ hv₂).2 v (h ▸ hv)

theorem wrapFree_negateEnds {c : ValueConstraint α} (h : Bounded c.norm) :
    ∀ d ∈ (negateLower c.lower).toList ++ (negateUpper c.upper).toList, d.WrapFree := by
  obtain ⟨lo, up⟩ := c
  intro d hd
  rcases List.mem_append.mp hd with hd | hd
  · rcases lo with o | ⟨v, o⟩
    · cases hd
    · rw [List.mem_singleton.mp hd]
      refine ⟨fun w hw => (by cases hw), ?_⟩
      intro w hw
      cases o with
      | true => cases hw
      | false =>
        cases hw
        exact h.1 v rfl
  · rcases up with o | ⟨v, o⟩
    · cases hd
    · rw [List.mem_singleton.mp hd]
      refine ⟨?_, fun w hw => by cases hw⟩
      intro w hw
      cases o with
      | true => cases hw
      | false =>
        cases hw
        exact h.2 v rfl

theorem wrapFree_negateLoop {val : List (ValueConstraint α)} (h : ∀ c ∈ val, Bounded c.norm) :
    ∀ result : List (ValueConstraint α), (∀ c ∈ result, c.WrapFree) →
      ∀ c ∈ negateLoop result val, c.WrapFree := by
  induction val with
  | nil =>
    intro result hr
    exact hr
  | cons d val ih =>
    intro result hr
    unfold negateLoop
    split
    · intro c hc
      cases hc
    · exact ih (fun c hc => h c (List.mem_cons_of_mem d hc)) _
        (wrapFree_intersect hr (wrapFree_negateEnds (h d List.mem_cons_self)))

theorem wrapFree_negate {val : List (ValueConstraint α)} (h : ∀ c ∈ val, Bounded c.norm) :
    ∀ c ∈ negateValueConstraints val, c.WrapFree := by
  refine wrapFree_negateLoop h _ ?_
  intro c hc
  rw [List.mem_singleton.mp hc]
  exact ⟨fun v hv => (by cases hv), fun v hv => by cases hv⟩

theorem wrapFree_exclude {val₁ val₂ : List (ValueConstraint α)} (h₁ : ∀ c ∈ val₁, c.WrapFree)
    (h₂ : ∀ c ∈ val₂, Bounded c.norm) : ∀ c ∈ excludeValueConstraints val₁ val₂, c.WrapFree :=
  wrapFree_intersect h₁ (wrapFree_negate h₂)

end Algebra

/-- The extracted constraints are the value constraint `root` and nothing else. -/
structure PERConstraints.IsValues {k : Kind} (r : PERConstraints k)
    (root : List (ValueConstraint k.Bound)) : Prop where
  value : r.value = { type := .unextended, root := root }
  size : r.size.type = .unconstrained
  permittedAlphabet : r.permittedAlphabet.type = .unconstrained

theorem wrapFree_singleValue (k : Kind) (v : k.Value) (inPermAlpha : Bool) :
    ∀ c ∈ singleValueConstraints k v inPermAlpha, c.WrapFree := by
  intro c hc
  cases k with
  | integer =>
    rw [List.mem_singleton.mp hc]
    exact ⟨fun v hv => (by cases hv), fun v hv => by cases hv⟩
  | string =>
    cases inPermAlpha with
    | false => cases hc
    | true =>
      obtain ⟨b, _, rfl⟩ := List.mem_map.mp hc
      exact ⟨fun v hv => (by cases hv), fun v hv => by cases hv⟩
  | other => cases hc

/-- What the extraction of a spec of single values and value ranges yields. -/
def Extracts {k : Kind} (run : Except Failure (PERConstraints k)) (pieces : List (Range k.Bound))
    (noWrap : Prop) : Prop :=
  ∃ r root, run = .ok r ∧ r.IsValues root ∧ root.map ValueConstraint.norm = pieces ∧
    (noWrap → ∀ c ∈ root, c.WrapFree)

mutual

theorem Constraint.extracts {k : Kind} : (c : Constraint k) → (outs : Outs) → (a : Bool) →
    c.OnlyValues a → outs.value ≠ .absent →
    Extracts (getAllPERFromConstraints c outs a) (c.pieces a) (c.NoWrap a)
  | .none, _, _, h, _ => by simp [Constraint.OnlyValues] at h
  | .unextended root, outs, a, h, ho => by
    simp only [Constraint.OnlyValues] at h
    simp only [getAllPERFromConstraints, Constraint.pieces, Constraint.NoWrap]
    exact root.extracts outs a h ho
  | .extendable _, _, _, h, _ => by simp [Constraint.OnlyValues] at h
  | .extended _ _, _, _, h, _ => by simp [Constraint.OnlyValues] at h

theorem ElementSetSpec.extracts {k : Kind} : (e : ElementSetSpec k) → (outs : Outs) → (a : Bool) →
    e.OnlyValues a → outs.value ≠ .absent →
    Extracts (getAllPERFromElementSetSpecs e outs a) (e.pieces a) (e.NoWrap a)
  | .intersection e₁ e₂, outs, a, h, ho => by
    simp only [ElementSetSpec.OnlyValues] at h
    obtain ⟨r₁, l₁, hr₁, hv₁, hp₁, hw₁⟩ := e₁.extracts {} a h.1 (by decide)
    obtain ⟨r₂, l₂, hr₂, hv₂, hp₂, hw₂⟩ := e₂.extracts {} a h.2 (by decide)
    refine ⟨⟨intersectPERConstraints r₁.value r₂.value, intersectPERConstraints r₁.size r₂.size,
      intersectPERConstraints r₁.permittedAlphabet r₂.permittedAlphabet⟩,
      intersectValueConstraints l₁ l₂, ?_, ?_, ?_, ?_⟩
    · simp only [getAllPERFromElementSetSpecs, hr₁, hr₂]
      rfl
    · exact ⟨by simp [hv₁.value, hv₂.value, intersectPERConstraints],
        by simp [hv₁.size, hv₂.size, intersectPERConstraints],
        by simp [hv₁.permittedAlphabet, hv₂.permittedAlphabet, intersectPERConstraints]⟩
    · rw [map_norm_intersect, hp₁, hp₂, ElementSetSpec.pieces]
    · intro hw
      simp only [ElementSetSpec.NoWrap] at hw
      exact wrapFree_intersect (hw₁ hw.1) (hw₂ hw.2)
  | .union e₁ e₂, outs, a, h, ho => by
    simp only [ElementSetSpec.OnlyValues] at h
    obtain ⟨r₁, l₁, hr₁, hv₁, hp₁, hw₁⟩ := e₁.extracts {} a h.1 (by decide)
    obtain ⟨r₂, l₂, hr₂, hv₂, hp₂, hw₂⟩ := e₂.extracts {} a h.2 (by decide)
    refine ⟨⟨unitePERConstraints r₁.value r₂.value, unitePERConstraints r₁.size r₂.size,
      unitePERConstraints r₁.permittedAlphabet r₂.permittedAlphabet⟩,
      uniteValueConstraints l₁ l₂, ?_, ?_, ?_, ?_⟩
    · simp only [getAllPERFromElementSetSpecs, hr₁, hr₂]
      rfl
    · exact ⟨by simp [hv₁.value, hv₂.value, unitePERConstraints],
        by simp [hv₁.size, hv₂.size, unitePERConstraints],
        by simp [hv₁.permittedAlphabet, hv₂.permittedAlphabet, unitePERConstraints]⟩
    · rw [uniteValueConstraints, List.map_append, hp₁, hp₂, ElementSetSpec.pieces]
    · intro hw c hc
      simp only [ElementSetSpec.NoWrap] at hw
      rcases List.mem_append.mp hc with hc | hc
      · exact hw₁ hw.1 c hc
      · exact hw₂ hw.2 c hc
  | .allExcept e, outs, a, h, ho => by
    simp only [ElementSetSpec.OnlyValues] at h
    obtain ⟨r, l, hr, hv, hp, hw⟩ := e.extracts {} a h (by decide)
    refine ⟨⟨negatePERConstraints r.value, negatePERConstraints r.size,
      negatePERConstraints r.permittedAlphabet⟩, negateValueConstraints l, ?_, ?_, ?_, ?_⟩
    · simp only [getAllPERFromElementSetSpecs, hr]
      rfl
    · exact ⟨by simp [hv.value, negatePERConstraints], by simp [hv.size, negatePERConstraints],
        by simp [hv.permittedAlphabet, negatePERConstraints]⟩
    · rw [map_norm_negate, hp, ElementSetSpec.pieces]
    · intro hn
      simp only [ElementSetSpec.NoWrap] at hn
      exact wrapFree_negate fun c hc => hn.2 _ (hp ▸ List.mem_map_of_mem hc)
  | .exclusion e₁ e₂, outs, a, h, ho => by
    simp only [ElementSetSpec.OnlyValues] at h
    obtain ⟨r₁, l₁, hr₁, hv₁, hp₁, hw₁⟩ := e₁.extracts {} a h.1 (by decide)
    obtain ⟨r₂, l₂, hr₂, hv₂, hp₂, hw₂⟩ := e₂.extracts {} a h.2 (by decide)
    refine ⟨⟨excludePERConstraints r₁.value r₂.value, excludePERConstraints r₁.size r₂.size,
      excludePERConstraints r₁.permittedAlphabet r₂.permittedAlphabet⟩,
      excludeValueConstraints l₁ l₂, ?_, ?_, ?_, ?_⟩
    · simp only [getAllPERFromElementSetSpecs, hr₁, hr₂]
      rfl
    · exact ⟨by simp [hv₁.value, hv₂.value, excludePERConstraints],
        by simp [hv₁.size, hv₂.size, excludePERConstraints],
        by simp [hv₁.permittedAlphabet, hv₂.permittedAlphabet, excludePERConstraints]⟩
    · rw [map_norm_exclude, hp₁, hp₂, ElementSetSpec.pieces]
    · intro hw
      simp only [ElementSetSpec.NoWrap] at hw
      exact wrapFree_exclude (hw₁ hw.1) fun c hc => hw.2.2 _ (hp₂ ▸ List.mem_map_of_mem hc)
  | .subtypeElement s, outs, a, h, ho => by
    simp only [ElementSetSpec.OnlyValues] at h
    simp only [getAllPERFromElementSetSpecs, ElementSetSpec.pieces, ElementSetSpec.NoWrap]
    exact s.extracts outs a h ho

theorem SubtypeElement.extracts {k : Kind} : (s : SubtypeElement k) → (outs : Outs) → (a : Bool) →
    s.OnlyValues a → outs.value ≠ .absent →
    Extracts (getAllPERFromSubtypeElements s outs a) (s.pieces a) (s.NoWrap a)
  | .valueRange lower upper, outs, a, _, ho => by
    refine ⟨{ value := { type := .unextended, root := [⟨lower, upper⟩] } }, [⟨lower, upper⟩],
      ?_, ⟨rfl, rfl, rfl⟩, ?_, ?_⟩
    · simp only [getAllPERFromSubtypeElements]
      rw [if_neg ho]
    · simp only [SubtypeElement.pieces, List.map_cons, List.map_nil, ValueConstraint.norm]
    · intro hw c hc
      simp only [SubtypeElement.NoWrap] at hw
      rw [List.mem_singleton.mp hc]
      exact hw
  | .singleValue v, outs, a, _, ho => by
    refine ⟨{ value := { type := .unextended, root := singleValueConstraints k v a } },
      singleValueConstraints k v a, ?_, ⟨rfl, rfl, rfl⟩, ?_, ?_⟩
    · simp only [getAllPERFromSubtypeElements]
      rw [if_neg ho]
    · simp only [SubtypeElement.pieces]
    · intro _
      exact wrapFree_singleValue k v a
  | .size _, _, _, h, _ => by simp [SubtypeElement.OnlyValues] at h
  | .permittedAlphabet _, _, _, h, _ => by simp [SubtypeElement.OnlyValues] at h
  | .containedSubtype c, outs, a, h, ho => by
    simp only [SubtypeElement.OnlyValues] at h
    obtain ⟨rfl, h⟩ := h
    obtain ⟨r, l, hr, hv, hp, hw⟩ := c.extracts outs false h ho
    refine ⟨⟨dropExtensions r.value, dropExtensions r.size, dropExtensions r.permittedAlphabet⟩, l,
      ?_, ?_, ?_, ?_⟩
    · simp only [getAllPERFromSubtypeElements, hr]
      rfl
    · exact ⟨by simp [hv.value, dropExtensions, Extension.rank],
        by simp [hv.size, dropExtensions, Extension.rank],
        by simp [hv.permittedAlphabet, dropExtensions, Extension.rank]⟩
    · rw [hp, SubtypeElement.pieces]
    · intro hn
      exact hw (by simpa only [SubtypeElement.NoWrap] using hn)
  | .notVisible _, _, _, h, _ => by simp [SubtypeElement.OnlyValues] at h
  | .elementSetSpec e, outs, a, h, ho => by
    simp only [SubtypeElement.OnlyValues] at h
    simp only [getAllPERFromSubtypeElements, SubtypeElement.pieces, SubtypeElement.NoWrap]
    exact e.extracts outs a h ho

end

end SdkTools.Asn1
