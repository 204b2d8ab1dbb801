import SdkTools.Asn1.Reduced

/-!
# The components a spec constrains

Which of the value, size and permitted alphabet constraints a spec without
extensions yields, and the operations on one of them.
-/

namespace SdkTools.Asn1

set_option autoImplicit false

universe u

inductive Component where
  | value
  | size
  | alphabet
  deriving DecidableEq

def PERConstraints.type {k : Kind} (r : PERConstraints k) : Component → Extension
  | .value => r.value.type
  | .size => r.size.type
  | .alphabet => r.permittedAlphabet.type

mutual

def Constraint.Plain {k : Kind} (c : Constraint k) : Prop :=
  match c with
  | .none => True
  | .unextended root => root.Plain
  | _ => False

/-- No constraint in the spec has an extension marker. -/
def ElementSetSpec.Plain {k : Kind} (e : ElementSetSpec k) : Prop :=
  match e with
  | .intersection e₁ e₂ => e₁.Plain ∧ e₂.Plain
  | .union e₁ e₂ => e₁.Plain ∧ e₂.Plain
  | .allExcept e => e.Plain
  | .exclusion e₁ e₂ => e₁.Plain ∧ e₂.Plain
  | .subtypeElement s => s.Plain

def SubtypeElement.Plain {k : Kind} (s : SubtypeElement k) : Prop :=
  match s with
  | .size c => c.Plain
  | .permittedAlphabet c => c.Plain
  | .containedSubtype c => c.Plain
  | .elementSetSpec e => e.Plain
  | _ => True

end

mutual

def Constraint.Constrains {k : Kind} (a : Bool) (i : Component) (c : Constraint k) : Bool :=
  match c with
  | .unextended root => root.Constrains a i
  | _ => false

/-- The spec has an element that constrains the component. -/
def ElementSetSpec.Constrains {k : Kind} (a : Bool) (i : Component) (e : ElementSetSpec k) : Bool :=
  match e with
  | .intersection e₁ e₂ => e₁.Constrains a i || e₂.Constrains a i
  | .union e₁ e₂ => e₁.Constrains a i || e₂.Constrains a i
  | .allExcept e => e.Constrains a i
  | .exclusion e₁ e₂ => e₁.Constrains a i || e₂.Constrains a i
  | .subtypeElement s => s.Constrains a i

def SubtypeElement.Constrains {k : Kind} (a : Bool) (i : Component) (s : SubtypeElement k) : Bool :=
  match s with
  | .valueRange _ _ => decide (i = .value)
  | .singleValue _ => decide (i = .value)
  | .size c => !a && decide (i = .size) && c.Constrains false .value
  | .permittedAlphabet c => !a && decide (i = .alphabet) && c.Constrains true .value
  | .containedSubtype c => !a && c.Constrains false i
  | .notVisible _ => false
  | .elementSetSpec e => e.Constrains a i

end

mutual

theorem Constraint.constrains_permAlpha {k : Kind} : (c : Constraint k) →
    c.Constrains true .alphabet = false
  | .none => by simp [Constraint.Constrains]
  | .unextended root => by simp [Constraint.Constrains, root.constrains_permAlpha]
  | .extendable _ => by simp [Constraint.Constrains]
  | .extended _ _ => by simp [Constraint.Constrains]

/-- In a permitted alphabet nothing constrains the permitted alphabet. -/
theorem ElementSetSpec.constrains_permAlpha {k : Kind} : (e : ElementSetSpec k) →
    e.Constrains true .alphabet = false
  | .intersection e₁ e₂ => by
    simp [ElementSetSpec.Constrains, e₁.constrains_permAlpha, e₂.constrains_permAlpha]
  | .union e₁ e₂ => by
    simp [ElementSetSpec.Constrains, e₁.constrains_permAlpha, e₂.constrains_permAlpha]
  | .allExcept e => by simp [ElementSetSpec.Constrains, e.constrains_permAlpha]
  | .exclusion e₁ e₂ => by
    simp [ElementSetSpec.Constrains, e₁.constrains_permAlpha, e₂.constrains_permAlpha]
  | .subtypeElement s => by simp [ElementSetSpec.Constrains, s.constrains_permAlpha]

theorem SubtypeElement.constrains_permAlpha {k : Kind} : (s : SubtypeElement k) →
    s.Constrains true .alphabet = false
  | .valueRange _ _ => by simp [SubtypeElement.Constrains]
  | .singleValue _ => by simp [SubtypeElement.Constrains]
  | .size _ => by simp [SubtypeElement.Constrains]
  | .permittedAlphabet _ => by simp [SubtypeElement.Constrains]
  | .containedSubtype _ => by simp [SubtypeElement.Constrains]
  | .notVisible _ => by simp [SubtypeElement.Constrains]
  | .elementSetSpec e => by simp [SubtypeElement.Constrains, e.constrains_permAlpha]

end

section Operations

variable {α : Type u} [BoundValue α]

/-- Some value constraint of the list has the value. -/
def HasAny (l : List (ValueConstraint α)) (x : α) : Prop := ∃ c ∈ l, c.Has x

/-- The type of a component, from whether it is constrained. -/
def extensionOf (constrained : Bool) : Extension :=
  if constrained then .unextended else .unconstrained

theorem type_intersect {c₁ c₂ : PERConstraint α} {b₁ b₂ : Bool} (h₁ : c₁.type = extensionOf b₁)
    (h₂ : c₂.type = extensionOf b₂) :
    (intersectPERConstraints c₁ c₂).type = extensionOf (b₁ || b₂) := by
  cases b₁ <;> cases b₂ <;> simp_all [intersectPERConstraints, extensionOf]

omit [BoundValue α] in
theorem type_unite {c₁ c₂ : PERConstraint α} {b₁ b₂ : Bool} (h₁ : c₁.type = extensionOf b₁)
    (h₂ : c₂.type = extensionOf b₂) :
    (unitePERConstraints c₁ c₂).type = extensionOf (b₁ || b₂) := by
  cases b₁ <;> cases b₂ <;> simp_all [unitePERConstraints, extensionOf]

theorem type_exclude {c₁ c₂ : PERConstraint α} {b₁ b₂ : Bool} (h₁ : c₁.type = extensionOf b₁)
    (h₂ : c₂.type = extensionOf b₂) :
    (excludePERConstraints c₁ c₂).type = extensionOf (b₁ || b₂) := by
  cases b₁ <;> cases b₂ <;> simp_all [excludePERConstraints, extensionOf]

omit [BoundValue α] in
theorem type_dropExtensions {c : PERConstraint α} {b : Bool} (h : c.type = extensionOf b) :
    dropExtensions c = c := by
  cases b <;> simp_all [dropExtensions, extensionOf, Extension.rank]

/-- A range that contains a value has no end that wraps. -/
theorem ValueConstraint.Has.wrapFree {c : ValueConstraint α} {x : α} (h : c.Has x) : c.WrapFree := by
  obtain ⟨lo, up⟩ := c
  constructor
  · rintro v rfl
    exact fun hv => not_le.mpr h.1 (hv h.1.le)
  · rintro v rfl
    exact fun hv => not_le.mpr h.2 (hv h.2.le)

theorem hasAny_intersect {l m : List (ValueConstraint α)} {x : α} (hl : HasAny l x)
    (hm : HasAny m x) : HasAny (intersectValueConstraints l m) x := by
  obtain ⟨c, hc, hcx⟩ := hl
  obtain ⟨d, hd, hdx⟩ := hm
  have hw : ∀ e ∈ intersectValueConstraints [c] [d], e.WrapFree :=
    wrapFree_intersect
      (fun e he => (List.mem_singleton.mp he) ▸ hcx.wrapFree)
      (fun e he => (List.mem_singleton.mp he) ▸ hdx.wrapFree)
  have hcov : Lib.Ranges.Covers
      ((intersectValueConstraints [c] [d]).map ValueConstraint.norm) x := by
    rw [map_norm_intersect, covers_meetAll]
    exact ⟨⟨c.norm, by simp, (hcx.wrapFree.has_iff x).mp hcx⟩,
      ⟨d.norm, by simp, (hdx.wrapFree.has_iff x).mp hdx⟩⟩
  obtain ⟨r, hr, hx⟩ := hcov
  obtain ⟨e, he, rfl⟩ := List.mem_map.mp hr
  refine ⟨e, ?_, ((hw e he).has_iff x).mpr hx⟩
  simp only [intersectValueConstraints, List.mem_flatMap, List.mem_filterMap] at he ⊢
  obtain ⟨c', hc', d', hd', he⟩ := he
  rw [List.mem_singleton.mp hc', List.mem_singleton.mp hd'] at he
  exact ⟨c, hc, d, hd, he⟩

theorem hasAny_negateEnds {c : ValueConstraint α} {x : α} (h : ¬ c.Has x) :
    HasAny ((negateLower c.lower).toList ++ (negateUpper c.upper).toList) x := by
  obtain ⟨lo, up⟩ := c
  by_cases hlo : lo.Admits x
  · have hup : ¬ up.Admits x := fun hup => h ⟨hlo, hup⟩
    rcases up with o | ⟨v, o⟩
    · exact absurd trivial hup
    · refine ⟨⟨.value v (!o), .max false⟩, by simp [negateUpper], ?_, trivial⟩
      cases o with
      | false => exact not_le.mp hup
      | true => exact not_lt.mp hup
  · rcases lo with o | ⟨v, o⟩
    · exact absurd trivial hlo
    · refine ⟨⟨.min false, .value v (!o)⟩, by simp [negateLower], trivial, ?_⟩
      cases o with
      | false => exact not_le.mp hlo
      | true => exact not_lt.mp hlo

theorem hasAny_negateLoop {x : α} {l : List (ValueConstraint α)} (h : ¬ HasAny l x) :
    ∀ acc : List (ValueConstraint α), HasAny acc x → HasAny (negateLoop acc l) x := by
  induction l with
  | nil =>
    intro acc hacc
    exact hacc
  | cons c l ih =>
    intro acc hacc
    have hc : ¬ c.Has x := fun hc => h ⟨c, List.mem_cons_self, hc⟩
    have hl : ¬ HasAny l x := fun ⟨d, hd, hx⟩ => h ⟨d, List.mem_cons_of_mem c hd, hx⟩
    have hends := hasAny_negateEnds hc
    unfold negateLoop
    split
    · rename_i hnil
      rw [hnil] at hends
      obtain ⟨d, hd, -⟩ := hends
      cases hd
    · exact ih hl _ (hasAny_intersect hacc hends)

theorem hasAny_negate {l : List (ValueConstraint α)} {x : α} (h : ¬ HasAny l x) :
    HasAny (negateValueConstraints l) x :=
  hasAny_negateLoop h _ ⟨_, List.mem_cons_self, trivial, trivial⟩

/-- The component is unconstrained or has the value. -/
def PERConstraint.AdmitsOption (c : PERConstraint α) (o : Option α) : Prop :=
  c.type ≠ .unconstrained → ∃ b, o = some b ∧ HasAny c.root b

theorem admitsOption_intersect {c₁ c₂ : PERConstraint α} {o : Option α} (h₁ : c₁.AdmitsOption o)
    (h₂ : c₂.AdmitsOption o) : (intersectPERConstraints c₁ c₂).AdmitsOption o := by
  unfold intersectPERConstraints
  split
  · exact h₂
  · split
    · exact h₁
    · rename_i hc₁ hc₂
      intro _
      obtain ⟨b, hb, hl⟩ := h₁ hc₁
      obtain ⟨b', hb', hm⟩ := h₂ hc₂
      have hbb : b' = b := Option.some.inj (hb'.symm.trans hb)
      exact ⟨b, hb, hasAny_intersect hl (hbb ▸ hm)⟩

theorem admitsOption_unite {c₁ c₂ : PERConstraint α} {o : Option α}
    (ht : c₁.type = .unconstrained ↔ c₂.type = .unconstrained)
    (h : c₁.AdmitsOption o ∨ c₂.AdmitsOption o) : (unitePERConstraints c₁ c₂).AdmitsOption o := by
  unfold unitePERConstraints
  split
  · rename_i hc₁
    exact fun hc₂ => absurd (ht.mp hc₁) hc₂
  · rename_i hc₁
    rw [if_neg fun hc₂ => hc₁ (ht.mpr hc₂)]
    intro _
    rcases h with h | h
    · obtain ⟨b, hb, c, hc, hx⟩ := h hc₁
      exact ⟨b, hb, c, List.mem_append_left _ hc, hx⟩
    · obtain ⟨b, hb, c, hc, hx⟩ := h fun hc₂ => hc₁ (ht.mpr hc₂)
      exact ⟨b, hb, c, List.mem_append_right _ hc, hx⟩

theorem admitsOption_negate {c : PERConstraint α} {b : α} (h : ¬ HasAny c.root b) :
    (negatePERConstraints c).AdmitsOption (some b) :=
  fun _ => ⟨b, rfl, hasAny_negate h⟩

theorem admitsOption_exclude_left {c₁ c₂ : PERConstraint α} {o : Option α}
    (h₁ : c₁.AdmitsOption o) (hc₂ : c₂.type = .unconstrained) :
    (excludePERConstraints c₁ c₂).AdmitsOption o := by
  unfold excludePERConstraints
  split
  · exact fun h => absurd hc₂ h
  · exact h₁

theorem admitsOption_exclude {c₁ c₂ : PERConstraint α} {o : Option α} (h₁ : c₁.AdmitsOption o)
    (hc₁ : c₁.type ≠ .unconstrained) (h₂ : ∀ b, o = some b → ¬ HasAny c₂.root b) :
    (excludePERConstraints c₁ c₂).AdmitsOption o := by
  unfold excludePERConstraints
  rw [if_neg hc₁]
  split
  · exact h₁
  · intro _
    obtain ⟨b, hb, hl⟩ := h₁ hc₁
    exact ⟨b, hb, hasAny_intersect hl (hasAny_negate (h₂ b hb))⟩

end Operations

end SdkTools.Asn1
