import SdkTools.Lib.Fallible
import SdkTools.Asn1.Components

/-!
# Effective constraints

When every value that a constraint admits satisfies the value, size and
permitted alphabet constraints extracted from it.
-/

namespace SdkTools.Asn1

open Lib

set_option autoImplicit false

section Runs

variable {k : Kind} {e e₁ e₂ : ElementSetSpec k} {outs : Outs} {a : Bool} {r : PERConstraints k}

theorem run_intersection
    (h : getAllPERFromElementSetSpecs (.intersection e₁ e₂) outs a = .ok r) :
    ∃ r₁ r₂, getAllPERFromElementSetSpecs e₁ {} a = .ok r₁ ∧
      getAllPERFromElementSetSpecs e₂ {} a = .ok r₂ ∧
      r = ⟨intersectPERConstraints r₁.value r₂.value, intersectPERConstraints r₁.size r₂.size,
        intersectPERConstraints r₁.permittedAlphabet r₂.permittedAlphabet⟩ := by
  simp only [getAllPERFromElementSetSpecs] at h
  obtain ⟨r₁, h₁, h⟩ := bind_eq_ok h
  obtain ⟨r₂, h₂, h⟩ := bind_eq_ok h
  exact ⟨r₁, r₂, h₁, h₂, (Except.ok.inj h).symm⟩

theorem run_union (h : getAllPERFromElementSetSpecs (.union e₁ e₂) outs a = .ok r) :
    ∃ r₁ r₂, getAllPERFromElementSetSpecs e₁ {} a = .ok r₁ ∧
      getAllPERFromElementSetSpecs e₂ {} a = .ok r₂ ∧
      r = ⟨unitePERConstraints r₁.value r₂.value, unitePERConstraints r₁.size r₂.size,
        unitePERConstraints r₁.permittedAlphabet r₂.permittedAlphabet⟩ := by
  simp only [getAllPERFromElementSetSpecs] at h
  obtain ⟨r₁, h₁, h⟩ := bind_eq_ok h
  obtain ⟨r₂, h₂, h⟩ := bind_eq_ok h
  exact ⟨r₁, r₂, h₁, h₂, (Except.ok.inj h).symm⟩

theorem run_allExcept (h : getAllPERFromElementSetSpecs (.allExcept e) outs a = .ok r) :
    ∃ r₁, getAllPERFromElementSetSpecs e {} a = .ok r₁ ∧
      r = ⟨negatePERConstraints r₁.value, negatePERConstraints r₁.size,
        negatePERConstraints r₁.permittedAlphabet⟩ := by
  simp only [getAllPERFromElementSetSpecs] at h
  obtain ⟨r₁, h₁, h⟩ := bind_eq_ok h
  exact ⟨r₁, h₁, (Except.ok.inj h).symm⟩

theorem run_exclusion (h : getAllPERFromElementSetSpecs (.exclusion e₁ e₂) outs a = .ok r) :
    ∃ r₁ r₂, getAllPERFromElementSetSpecs e₁ {} a = .ok r₁ ∧
      getAllPERFromElementSetSpecs e₂ {} a = .ok r₂ ∧
      r = ⟨excludePERConstraints r₁.value r₂.value, excludePERConstraints r₁.size r₂.size,
        excludePERConstraints r₁.permittedAlphabet r₂.permittedAlphabet⟩ := by
  simp only [getAllPERFromElementSetSpecs] at h
  obtain ⟨r₁, h₁, h⟩ := bind_eq_ok h
  obtain ⟨r₂, h₂, h⟩ := bind_eq_ok h
  exact ⟨r₁, r₂, h₁, h₂, (Except.ok.inj h).symm⟩

theorem run_size {c : Constraint .integer}
    (h : getAllPERFromSubtypeElements (.size c : SubtypeElement k) outs a = .ok r) :
    a = false ∧ outs.size ≠ .absent ∧
      ∃ rc, getAllPERFromConstraints c ⟨outs.size, .absent, .absent⟩ false = .ok rc ∧
        r = { size := rc.value } := by
  simp only [getAllPERFromSubtypeElements] at h
  split at h
  · cases h
  · rename_i hg
    have ha : a = false := by
      cases a with
      | false => rfl
      | true => exact absurd (Or.inr rfl) hg
    subst ha
    obtain ⟨rc, hrc, hr⟩ := bind_eq_ok h
    exact ⟨rfl, fun ho => hg (Or.inl ho), rc, hrc, (Except.ok.inj hr).symm⟩

theorem run_permittedAlphabet {c : Constraint k}
    (h : getAllPERFromSubtypeElements (.permittedAlphabet c) outs a = .ok r) :
    a = false ∧
      ∃ rc, getAllPERFromConstraints c ⟨outs.permittedAlphabet, .absent, .absent⟩ true = .ok rc ∧
      r = { permittedAlphabet := rc.value } := by
  simp only [getAllPERFromSubtypeElements] at h
  split at h
  · cases h
  · rename_i hg
    obtain ⟨rc, hrc, h⟩ := bind_eq_ok h
    have ha : a = false := by
      cases a with
      | false => rfl
      | true => exact absurd (Or.inr rfl) hg
    exact ⟨ha, rc, hrc, (Except.ok.inj h).symm⟩

theorem run_containedSubtype {c : Constraint k}
    (h : getAllPERFromSubtypeElements (.containedSubtype c) outs false = .ok r) :
    ∃ rc, getAllPERFromConstraints c outs false = .ok rc ∧
      r = ⟨dropExtensions rc.value, dropExtensions rc.size,
        dropExtensions rc.permittedAlphabet⟩ := by
  simp only [getAllPERFromSubtypeElements] at h
  obtain ⟨rc, hrc, h⟩ := bind_eq_ok h
  exact ⟨rc, hrc, (Except.ok.inj h).symm⟩

theorem run_containedSubtype_permAlpha {c : Constraint k}
    (h : getAllPERFromSubtypeElements (.containedSubtype c) outs true = .ok r) :
    ∃ rc, getAllPERFromConstraints c ⟨.full, .full, outs.value⟩ true = .ok rc ∧
      r = { value := dropExtensions rc.permittedAlphabet } := by
  simp only [getAllPERFromSubtypeElements] at h
  obtain ⟨rc, hrc, h⟩ := bind_eq_ok h
  exact ⟨rc, hrc, (Except.ok.inj h).symm⟩

theorem run_valueRange {lower : LowerEndPoint k.Bound} {upper : UpperEndPoint k.Bound}
    (h : getAllPERFromSubtypeElements (.valueRange lower upper) outs a = .ok r) :
    r = { value := { type := .unextended, root := [⟨lower, upper⟩] } } := by
  simp only [getAllPERFromSubtypeElements] at h
  split at h
  · cases h
  · exact (Except.ok.inj h).symm

theorem run_singleValue {v : k.Value}
    (h : getAllPERFromSubtypeElements (.singleValue v) outs a = .ok r) :
    r = { value := { type := .unextended, root := singleValueConstraints k v a } } := by
  simp only [getAllPERFromSubtypeElements] at h
  split at h
  · cases h
  · exact (Except.ok.inj h).symm

end Runs

/-- Each component is constrained as the spec says. -/
def PERConstraints.TypesAre {k : Kind} (r : PERConstraints k) (f : Component → Bool) : Prop :=
  ∀ i, r.type i = extensionOf (f i)

mutual

theorem Constraint.types {k : Kind} : (c : Constraint k) → c.Plain → (outs : Outs) → (a : Bool) →
    (r : PERConstraints k) → getAllPERFromConstraints c outs a = .ok r →
    r.TypesAre fun i => c.Constrains a i
  | .none, _, _, _, r, h => by
    simp only [getAllPERFromConstraints] at h
    rw [← Except.ok.inj h]
    intro i
    cases i <;> rfl
  | .unextended root, hp, outs, a, r, h => by
    simp only [Constraint.Plain] at hp
    simp only [getAllPERFromConstraints] at h
    simp only [Constraint.Constrains]
    exact root.types hp outs a r h
  | .extendable _, hp, _, _, _, _ => by simp [Constraint.Plain] at hp
  | .extended _ _, hp, _, _, _, _ => by simp [Constraint.Plain] at hp

theorem ElementSetSpec.types {k : Kind} : (e : ElementSetSpec k) → e.Plain → (outs : Outs) →
    (a : Bool) → (r : PERConstraints k) → getAllPERFromElementSetSpecs e outs a = .ok r →
    r.TypesAre fun i => e.Constrains a i
  | .intersection e₁ e₂, hp, outs, a, r, h => by
    simp only [ElementSetSpec.Plain] at hp
    obtain ⟨r₁, r₂, h₁, h₂, rfl⟩ := run_intersection h
    have ht₁ := e₁.types hp.1 {} a r₁ h₁
    have ht₂ := e₂.types hp.2 {} a r₂ h₂
    intro i
    simp only [ElementSetSpec.Constrains]
    cases i with
    | value => exact type_intersect (ht₁ .value) (ht₂ .value)
    | size => exact type_intersect (ht₁ .size) (ht₂ .size)
    | alphabet => exact type_intersect (ht₁ .alphabet) (ht₂ .alphabet)
  | .union e₁ e₂, hp, outs, a, r, h => by
    simp only [ElementSetSpec.Plain] at hp
    obtain ⟨r₁, r₂, h₁, h₂, rfl⟩ := run_union h
    have ht₁ := e₁.types hp.1 {} a r₁ h₁
    have ht₂ := e₂.types hp.2 {} a r₂ h₂
    intro i
    simp only [ElementSetSpec.Constrains]
    cases i with
    | value => exact type_unite (ht₁ .value) (ht₂ .value)
    | size => exact type_unite (ht₁ .size) (ht₂ .size)
    | alphabet => exact type_unite (ht₁ .alphabet) (ht₂ .alphabet)
  | .allExcept e, hp, outs, a, r, h => by
    simp only [ElementSetSpec.Plain] at hp
    obtain ⟨r₁, h₁, rfl⟩ := run_allExcept h
    have ht := e.types hp {} a r₁ h₁
    intro i
    simp only [ElementSetSpec.Constrains]
    cases i with
    | value => exact ht .value
    | size => exact ht .size
    | alphabet => exact ht .alphabet
  | .exclusion e₁ e₂, hp, outs, a, r, h => by
    simp only [ElementSetSpec.Plain] at hp
    obtain ⟨r₁, r₂, h₁, h₂, rfl⟩ := run_exclusion h
    have ht₁ := e₁.types hp.1 {} a r₁ h₁
    have ht₂ := e₂.types hp.2 {} a r₂ h₂
    intro i
    simp only [ElementSetSpec.Constrains]
    cases i with
    | value => exact type_exclude (ht₁ .value) (ht₂ .value)
    | size => exact type_exclude (ht₁ .size) (ht₂ .size)
    | alphabet => exact type_exclude (ht₁ .alphabet) (ht₂ .alphabet)
  | .subtypeElement s, hp, outs, a, r, h => by
    simp only [ElementSetSpec.Plain] at hp
    simp only [getAllPERFromElementSetSpecs] at h
    simp only [ElementSetSpec.Constrains]
    exact s.types hp outs a r h

theorem SubtypeElement.types {k : Kind} : (s : SubtypeElement k) → s.Plain → (outs : Outs) →
    (a : Bool) → (r : PERConstraints k) → getAllPERFromSubtypeElements s outs a = .ok r →
    r.TypesAre fun i => s.Constrains a i
  | .valueRange _ _, _, _, _, _, h => by
    rw [run_valueRange h]
    intro i
    cases i <;> rfl
  | .singleValue _, _, _, _, _, h => by
    rw [run_singleValue h]
    intro i
    cases i <;> rfl
  | .size c, hp, outs, a, r, h => by
    simp only [SubtypeElement.Plain] at hp
    obtain ⟨rfl, -, rc, hrc, rfl⟩ := run_size h
    have ht := c.types hp _ false rc hrc .value
    intro i
    simp only [SubtypeElement.Constrains]
    cases i with
    | value => rfl
    | size => exact ht
    | alphabet => rfl
  | .permittedAlphabet c, hp, outs, a, r, h => by
    simp only [SubtypeElement.Plain] at hp
    obtain ⟨rfl, rc, hrc, rfl⟩ := run_permittedAlphabet h
    have ht := c.types hp _ true rc hrc .value
    intro i
    simp only [SubtypeElement.Constrains]
    cases i with
    | value => rfl
    | size => rfl
    | alphabet => exact ht
  | .containedSubtype c, hp, outs, false, r, h => by
    simp only [SubtypeElement.Plain] at hp
    obtain ⟨rc, hrc, rfl⟩ := run_containedSubtype h
    have ht := c.types hp outs false rc hrc
    intro i
    simp only [SubtypeElement.Constrains]
    cases i with
    | value =>
      rw [type_dropExtensions (ht .value)]
      exact ht .value
    | size =>
      rw [type_dropExtensions (ht .size)]
      exact ht .size
    | alphabet =>
      rw [type_dropExtensions (ht .alphabet)]
      exact ht .alphabet
  | .containedSubtype c, hp, outs, true, r, h => by
    simp only [SubtypeElement.Plain] at hp
    obtain ⟨rc, hrc, rfl⟩ := run_containedSubtype_permAlpha h
    have ht := c.types hp _ true rc hrc .alphabet
    simp only [c.constrains_permAlpha] at ht
    intro i
    simp only [SubtypeElement.Constrains]
    cases i with
    | value =>
      rw [type_dropExtensions ht]
      exact ht
    | size => rfl
    | alphabet => rfl
  | .notVisible _, _, _, _, r, h => by
    simp only [getAllPERFromSubtypeElements] at h
    rw [← Except.ok.inj h]
    intro i
    cases i <;> rfl
  | .elementSetSpec e, hp, outs, a, r, h => by
    simp only [SubtypeElement.Plain] at hp
    simp only [getAllPERFromSubtypeElements] at h
    simp only [SubtypeElement.Constrains]
    exact e.types hp outs a r h

end

mutual

def Constraint.OnlySizes {k : Kind} (c : Constraint k) : Prop :=
  match c with
  | .unextended root => root.OnlySizes
  | _ => False

/-- The spec is made of size constraints. -/
def ElementSetSpec.OnlySizes {k : Kind} (e : ElementSetSpec k) : Prop :=
  match e with
  | .intersection e₁ e₂ => e₁.OnlySizes ∧ e₂.OnlySizes
  | .union e₁ e₂ => e₁.OnlySizes ∧ e₂.OnlySizes
  | .allExcept e => e.OnlySizes
  | .exclusion e₁ e₂ => e₁.OnlySizes ∧ e₂.OnlySizes
  | .subtypeElement s => s.OnlySizes

def SubtypeElement.OnlySizes {k : Kind} (s : SubtypeElement k) : Prop :=
  match s with
  | .size c => c.OnlyValues false
  | .containedSubtype c => c.OnlySizes
  | .elementSetSpec e => e.OnlySizes
  | _ => False

end

mutual

def Constraint.Sound {k : Kind} (a : Bool) (c : Constraint k) : Prop :=
  match c with
  | .unextended root => root.Sound a
  | _ => True

/-- Both sides of a union constrain the same components. What is subtracted
constrains no component, or consists of values or of sizes only, and then that
component is constrained by what it is subtracted from. -/
def ElementSetSpec.Sound {k : Kind} (a : Bool) (e : ElementSetSpec k) : Prop :=
  match e with
  | .intersection e₁ e₂ => e₁.Sound a ∧ e₂.Sound a
  | .union e₁ e₂ => e₁.Sound a ∧ e₂.Sound a ∧ ∀ i, e₁.Constrains a i = e₂.Constrains a i
  | .allExcept e =>
    (∀ i, e.Constrains a i = false) ∨
    ((k = .integer ∨ a = true) ∧ e.OnlyValues a ∧ e.NoWrap a) ∨
    (k ≠ .integer ∧ a = false ∧ e.OnlySizes)
  | .exclusion e₁ e₂ =>
    e₁.Sound a ∧
    ((∀ i, e₂.Constrains a i = false) ∨
    (e₁.Constrains a .value = true ∧ e₂.OnlyValues a ∧ e₂.NoWrap a) ∨
    (e₁.Constrains a .size = true ∧ a = false ∧ e₂.OnlySizes))
  | .subtypeElement s => s.Sound a

def SubtypeElement.Sound {k : Kind} (a : Bool) (s : SubtypeElement k) : Prop :=
  match s with
  | .valueRange _ _ => True
  | .singleValue _ => k = .integer ∨ a = true
  | .size c => c.Sound false
  | .permittedAlphabet c => c.Sound true
  | .containedSubtype c => a = true ∨ c.Sound false
  | .notVisible _ => True
  | .elementSetSpec e => e.Sound a

end

/-- The value lies inside of all three constraints. -/
def PERConstraints.Satisfies {k : Kind} (r : PERConstraints k) (a : Bool) (x : Item k a) : Prop :=
  r.value.AdmitsOption (valueOf k a x) ∧ r.size.AdmitsOption (sizeOf k a x) ∧
    ∀ b ∈ charsOf k a x, r.permittedAlphabet.AdmitsOption (some b)

theorem hasAny_iff_covers {k : Kind} {root : List (ValueConstraint k.Bound)}
    (hw : ∀ c ∈ root, c.WrapFree) (b : k.Bound) :
    HasAny root b ↔ Lib.Ranges.Covers (root.map ValueConstraint.norm) b := by
  simp only [HasAny, Lib.Ranges.Covers, List.mem_map, exists_exists_and_eq_and]
  constructor
  · rintro ⟨c, hc, hx⟩
    exact ⟨c, hc, ((hw c hc).has_iff b).mp hx⟩
  · rintro ⟨c, hc, hx⟩
    exact ⟨c, hc, ((hw c hc).has_iff b).mpr hx⟩

/-- A spec of values yields exactly its set. -/
theorem ElementSetSpec.exact_values {k : Kind} {e : ElementSetSpec k} {outs : Outs} {a : Bool}
    {r : PERConstraints k} (ho : e.OnlyValues a) (hn : e.NoWrap a) (hv : outs.value ≠ .absent)
    (h : getAllPERFromElementSetSpecs e outs a = .ok r) :
    r.value.type = .unextended ∧ r.size.type = .unconstrained ∧
      r.permittedAlphabet.type = .unconstrained ∧
      ∀ x b, valueOf k a x = some b → (HasAny r.value.root b ↔ e.Admits a x) := by
  obtain ⟨r', root, hr', hval, hp, hw⟩ := e.extracts outs a ho hv
  obtain rfl : r = r' := Except.ok.inj (h.symm.trans hr')
  refine ⟨by rw [hval.value], hval.size, hval.permittedAlphabet, ?_⟩
  intro x b hb
  rw [hval.value, hasAny_iff_covers (hw hn), hp]
  exact e.covers_pieces a ho hn x b hb

section Sizes

theorem wrapFree_int (c : ValueConstraint Int) : c.WrapFree :=
  ⟨fun v _ => int_not_isMax v, fun v _ => int_not_isMin v⟩

theorem hasAny_int (l : List (ValueConstraint Int)) (n : Int) :
    HasAny l n ↔ Lib.Ranges.Covers (l.map ValueConstraint.norm) n :=
  hasAny_iff_covers (k := .integer) (fun c _ => wrapFree_int c) n

theorem hasAny_intersect_int (l m : List (ValueConstraint Int)) (n : Int) :
    HasAny (intersectValueConstraints l m) n ↔ HasAny l n ∧ HasAny m n := by
  rw [hasAny_int, hasAny_int, hasAny_int, map_norm_intersect, covers_meetAll]

theorem hasAny_unite_int (l m : List (ValueConstraint Int)) (n : Int) :
    HasAny (uniteValueConstraints l m) n ↔ HasAny l n ∨ HasAny m n := by
  rw [hasAny_int, hasAny_int, hasAny_int, uniteValueConstraints, List.map_append,
    Lib.Ranges.covers_append]

theorem hasAny_negate_int (l : List (ValueConstraint Int)) (n : Int) :
    HasAny (negateValueConstraints l) n ↔ ¬ HasAny l n := by
  rw [hasAny_int, hasAny_int, map_norm_negate, covers_complement]
  exact fun r _ => ⟨fun v _ => int_not_isMin v, fun v _ => int_not_isMax v⟩

theorem hasAny_exclude_int (l m : List (ValueConstraint Int)) (n : Int) :
    HasAny (excludeValueConstraints l m) n ↔ HasAny l n ∧ ¬ HasAny m n := by
  rw [excludeValueConstraints, hasAny_intersect_int, hasAny_negate_int]

/-- The extracted constraints are the size constraint, and that is the set `S`. -/
structure PERConstraints.IsSizes {k : Kind} (r : PERConstraints k) (S : k.Value → Prop) : Prop where
  value : r.value.type = .unconstrained
  permittedAlphabet : r.permittedAlphabet.type = .unconstrained
  size : r.size.type = .unextended
  exact : ∀ x n, sizeOf k false x = some n → (HasAny r.size.root n ↔ S x)

theorem intersect_unextended {c₁ c₂ : PERConstraint Int} (h₁ : c₁.type = .unextended)
    (h₂ : c₂.type = .unextended) :
    (intersectPERConstraints c₁ c₂).root = intersectValueConstraints c₁.root c₂.root := by
  simp [intersectPERConstraints, h₁, h₂]

theorem unite_unextended {c₁ c₂ : PERConstraint Int} (h₁ : c₁.type = .unextended)
    (h₂ : c₂.type = .unextended) :
    (unitePERConstraints c₁ c₂).root = uniteValueConstraints c₁.root c₂.root := by
  simp [unitePERConstraints, h₁, h₂]

theorem exclude_unextended {c₁ c₂ : PERConstraint Int} (h₁ : c₁.type = .unextended)
    (h₂ : c₂.type = .unextended) :
    (excludePERConstraints c₁ c₂).root = excludeValueConstraints c₁.root c₂.root := by
  simp [excludePERConstraints, h₁, h₂]

mutual

theorem Constraint.exact_sizes {k : Kind} : (c : Constraint k) → c.OnlySizes → (outs : Outs) →
    (r : PERConstraints k) → getAllPERFromConstraints c outs false = .ok r →
    r.IsSizes fun x => c.Admits false x
  | .none, ho, _, _, _ => by simp [Constraint.OnlySizes] at ho
  | .unextended root, ho, outs, r, h => by
    simp only [Constraint.OnlySizes] at ho
    simp only [getAllPERFromConstraints] at h
    simp only [Constraint.Admits]
    exact root.exact_sizes ho outs r h
  | .extendable _, ho, _, _, _ => by simp [Constraint.OnlySizes] at ho
  | .extended _ _, ho, _, _, _ => by simp [Constraint.OnlySizes] at ho

/-- A spec of sizes yields exactly its set. -/
theorem ElementSetSpec.exact_sizes {k : Kind} : (e : ElementSetSpec k) → e.OnlySizes →
    (outs : Outs) → (r : PERConstraints k) → getAllPERFromElementSetSpecs e outs false = .ok r →
    r.IsSizes fun x => e.Admits false x
  | .intersection e₁ e₂, ho, outs, r, h => by
    simp only [ElementSetSpec.OnlySizes] at ho
    obtain ⟨r₁, r₂, h₁, h₂, rfl⟩ := run_intersection h
    have hs₁ := e₁.exact_sizes ho.1 {} r₁ h₁
    have hs₂ := e₂.exact_sizes ho.2 {} r₂ h₂
    refine ⟨by simp [intersectPERConstraints, hs₁.value, hs₂.value],
      by simp [intersectPERConstraints, hs₁.permittedAlphabet, hs₂.permittedAlphabet],
      by simp [intersectPERConstraints, hs₁.size, hs₂.size], ?_⟩
    intro x n hn
    simp only [ElementSetSpec.Admits]
    rw [intersect_unextended hs₁.size hs₂.size, hasAny_intersect_int, hs₁.exact x n hn,
      hs₂.exact x n hn]
  | .union e₁ e₂, ho, outs, r, h => by
    simp only [ElementSetSpec.OnlySizes] at ho
    obtain ⟨r₁, r₂, h₁, h₂, rfl⟩ := run_union h
    have hs₁ := e₁.exact_sizes ho.1 {} r₁ h₁
    have hs₂ := e₂.exact_sizes ho.2 {} r₂ h₂
    refine ⟨by simp [unitePERConstraints, hs₁.value, hs₂.value],
      by simp [unitePERConstraints, hs₁.permittedAlphabet, hs₂.permittedAlphabet],
      by simp [unitePERConstraints, hs₁.size, hs₂.size], ?_⟩
    intro x n hn
    simp only [ElementSetSpec.Admits]
    rw [unite_unextended hs₁.size hs₂.size, hasAny_unite_int, hs₁.exact x n hn, hs₂.exact x n hn]
  | .allExcept e, ho, outs, r, h => by
    simp only [ElementSetSpec.OnlySizes] at ho
    obtain ⟨r₁, h₁, rfl⟩ := run_allExcept h
    have hs := e.exact_sizes ho {} r₁ h₁
    refine ⟨hs.value, hs.permittedAlphabet, hs.size, ?_⟩
    intro x n hn
    simp only [ElementSetSpec.Admits, negatePERConstraints]
    rw [hasAny_negate_int, hs.exact x n hn]
  | .exclusion e₁ e₂, ho, outs, r, h => by
    simp only [ElementSetSpec.OnlySizes] at ho
    obtain ⟨r₁, r₂, h₁, h₂, rfl⟩ := run_exclusion h
    have hs₁ := e₁.exact_sizes ho.1 {} r₁ h₁
    have hs₂ := e₂.exact_sizes ho.2 {} r₂ h₂
    refine ⟨by simp [excludePERConstraints, hs₁.value, hs₂.value],
      by simp [excludePERConstraints, hs₁.permittedAlphabet, hs₂.permittedAlphabet],
      by simp [excludePERConstraints, hs₁.size, hs₂.size], ?_⟩
    intro x n hn
    simp only [ElementSetSpec.Admits]
    rw [exclude_unextended hs₁.size hs₂.size, hasAny_exclude_int, hs₁.exact x n hn,
      hs₂.exact x n hn]
  | .subtypeElement s, ho, outs, r, h => by
    simp only [ElementSetSpec.OnlySizes] at ho
    simp only [getAllPERFromElementSetSpecs] at h
    simp only [ElementSetSpec.Admits]
    exact s.exact_sizes ho outs r h

theorem SubtypeElement.exact_sizes {k : Kind} : (s : SubtypeElement k) → s.OnlySizes →
    (outs : Outs) → (r : PERConstraints k) → getAllPERFromSubtypeElements s outs false = .ok r →
    r.IsSizes fun x => s.Admits false x
  | .valueRange _ _, ho, _, _, _ => by simp [SubtypeElement.OnlySizes] at ho
  | .singleValue _, ho, _, _, _ => by simp [SubtypeElement.OnlySizes] at ho
  | .size c, ho, outs, r, h => by
    simp only [SubtypeElement.OnlySizes] at ho
    obtain ⟨-, hout, rc, hrc, rfl⟩ := run_size h
    have hn : c.NoWrap false := c.noWrap false int_not_isMin int_not_isMax
    obtain ⟨rc', root, hrc', hval, hp, -⟩ := c.extracts ⟨outs.size, .absent, .absent⟩ false ho hout
    obtain rfl : rc = rc' := Except.ok.inj (hrc.symm.trans hrc')
    refine ⟨rfl, rfl, by rw [hval.value], ?_⟩
    intro x n hx
    have hcov := c.covers_pieces false ho hn n n rfl
    rw [hval.value, hasAny_int]
    simp only [SubtypeElement.Admits, hx, Option.some.injEq, exists_eq_left']
    rw [← hcov, ← hp]
  | .permittedAlphabet _, ho, _, _, _ => by simp [SubtypeElement.OnlySizes] at ho
  | .containedSubtype c, ho, outs, r, h => by
    simp only [SubtypeElement.OnlySizes] at ho
    obtain ⟨rc, hrc, rfl⟩ := run_containedSubtype h
    have hs := c.exact_sizes ho outs rc hrc
    have hv : dropExtensions rc.value = rc.value := type_dropExtensions (b := false) hs.value
    have hz : dropExtensions rc.size = rc.size := type_dropExtensions (b := true) hs.size
    have ha : dropExtensions rc.permittedAlphabet = rc.permittedAlphabet :=
      type_dropExtensions (b := false) hs.permittedAlphabet
    rw [hv, hz, ha]
    simp only [SubtypeElement.Admits, lift]
    exact hs
  | .notVisible _, ho, _, _, _ => by simp [SubtypeElement.OnlySizes] at ho
  | .elementSetSpec e, ho, outs, r, h => by
    simp only [SubtypeElement.OnlySizes] at ho
    simp only [getAllPERFromSubtypeElements] at h
    simp only [SubtypeElement.Admits]
    exact e.exact_sizes ho outs r h

end

end Sizes

theorem PERConstraint.AdmitsOption.of_unconstrained {α : Type} [BoundValue α] {c : PERConstraint α}
    (h : c.type = .unconstrained) (o : Option α) : c.AdmitsOption o := fun h' => absurd h h'

theorem admitsOption_negate_silent {α : Type} [BoundValue α] {c : PERConstraint α}
    (h : c.type = .unconstrained) (o : Option α) : (negatePERConstraints c).AdmitsOption o :=
  fun h' => absurd h h'

/-- A single value satisfies its own constraint. -/
theorem hasAny_singleValue (k : Kind) (a : Bool) (v : k.Value) (h : k = .integer ∨ a = true)
    (x : Item k a) (hx : admitsSingle k a v x) :
    ∃ b, valueOf k a x = some b ∧ HasAny (singleValueConstraints k v a) b := by
  cases k with
  | integer =>
    cases a with
    | false => exact ⟨x, rfl, _, List.mem_cons_self, hx.ge, hx.le⟩
    | true => exact ⟨x, rfl, _, List.mem_cons_self, hx.ge, hx.le⟩
  | string =>
    cases a with
    | false => simp at h
    | true => exact ⟨x, rfl, _, List.mem_map_of_mem hx, le_refl x, le_refl x⟩
  | other =>
    cases a with
    | false => simp at h
    | true => exact hx.elim

theorem valueOf_isSome (k : Kind) (a : Bool) (h : k = .integer ∨ a = true) (x : Item k a) :
    ∃ b, valueOf k a x = some b := by
  cases a with
  | true => exact ⟨x, rfl⟩
  | false =>
    rcases h with rfl | h
    · exact ⟨x, rfl⟩
    · cases h

theorem sizeOf_isSome (k : Kind) (h : k ≠ .integer) (x : Item k false) :
    ∃ n, sizeOf k false x = some n := by
  cases k with
  | integer => exact absurd rfl h
  | string => exact ⟨_, rfl⟩
  | other => exact ⟨_, rfl⟩

theorem satisfies_allExcept {k : Kind} {e : ElementSetSpec k} {a : Bool} {r : PERConstraints k}
    (hp : e.Plain) (h : getAllPERFromElementSetSpecs e {} a = .ok r)
    (hs : (ElementSetSpec.allExcept e).Sound a) (x : Item k a) (hx : ¬ e.Admits a x) :
    PERConstraints.Satisfies ⟨negatePERConstraints r.value, negatePERConstraints r.size,
      negatePERConstraints r.permittedAlphabet⟩ a x := by
  have ht := e.types hp {} a r h
  simp only [ElementSetSpec.Sound] at hs
  rcases hs with hs | ⟨hk, ho, hn⟩ | ⟨hk, rfl, ho⟩
  · have hu : ∀ i, r.type i = .unconstrained := by
      intro i
      exact (ht i).trans (congrArg extensionOf (hs i))
    exact ⟨admitsOption_negate_silent (hu .value) _, admitsOption_negate_silent (hu .size) _,
      fun b _ => admitsOption_negate_silent (hu .alphabet) _⟩
  · obtain ⟨-, hsize, halpha, hexact⟩ := ElementSetSpec.exact_values ho hn (by decide) h
    obtain ⟨b, hb⟩ := valueOf_isSome k a hk x
    refine ⟨?_, admitsOption_negate_silent hsize _, fun b _ => admitsOption_negate_silent halpha _⟩
    simp only [hb]
    exact admitsOption_negate fun hany => hx ((hexact x b hb).mp hany)
  · have hz := e.exact_sizes ho {} r h
    obtain ⟨n, hn⟩ := sizeOf_isSome k hk x
    refine ⟨admitsOption_negate_silent hz.value _, ?_,
      fun b _ => admitsOption_negate_silent hz.permittedAlphabet _⟩
    simp only [hn]
    exact admitsOption_negate fun hany => hx ((hz.exact x n hn).mp hany)

theorem satisfies_exclusion {k : Kind} {e₁ e₂ : ElementSetSpec k} {a : Bool}
    {r₁ r₂ : PERConstraints k} (hp₁ : e₁.Plain) (hp₂ : e₂.Plain)
    (h₁ : getAllPERFromElementSetSpecs e₁ {} a = .ok r₁)
    (h₂ : getAllPERFromElementSetSpecs e₂ {} a = .ok r₂)
    (hs : (ElementSetSpec.exclusion e₁ e₂).Sound a) (x : Item k a) (hsat : r₁.Satisfies a x)
    (hx : ¬ e₂.Admits a x) :
    PERConstraints.Satisfies ⟨excludePERConstraints r₁.value r₂.value,
      excludePERConstraints r₁.size r₂.size,
      excludePERConstraints r₁.permittedAlphabet r₂.permittedAlphabet⟩ a x := by
  obtain ⟨hvalue, hsize, halpha⟩ := hsat
  have ht₁ := e₁.types hp₁ {} a r₁ h₁
  have ht₂ := e₂.types hp₂ {} a r₂ h₂
  simp only [ElementSetSpec.Sound] at hs
  rcases hs.2 with hs | ⟨hc, ho, hn⟩ | ⟨hc, rfl, ho⟩
  · have hu : ∀ i, r₂.type i = .unconstrained := by
      intro i
      exact (ht₂ i).trans (congrArg extensionOf (hs i))
    exact ⟨admitsOption_exclude_left hvalue (hu .value), admitsOption_exclude_left hsize (hu .size),
      fun b hb => admitsOption_exclude_left (halpha b hb) (hu .alphabet)⟩
  · obtain ⟨-, hsize₂, halpha₂, hexact⟩ := ElementSetSpec.exact_values ho hn (by decide) h₂
    have hcon : r₁.value.type ≠ .unconstrained := by
      have ht := ht₁ .value
      simp only [hc] at ht
      intro hu
      exact absurd (ht.symm.trans hu) (by decide)
    refine ⟨admitsOption_exclude hvalue hcon ?_, admitsOption_exclude_left hsize hsize₂,
      fun b hb => admitsOption_exclude_left (halpha b hb) halpha₂⟩
    exact fun b hb hany => hx ((hexact x b hb).mp hany)
  · have hz := e₂.exact_sizes ho {} r₂ h₂
    have hcon : r₁.size.type ≠ .unconstrained := by
      have ht := ht₁ .size
      simp only [hc] at ht
      intro hu
      exact absurd (ht.symm.trans hu) (by decide)
    refine ⟨admitsOption_exclude_left hvalue hz.value, admitsOption_exclude hsize hcon ?_,
      fun b hb => admitsOption_exclude_left (halpha b hb) hz.permittedAlphabet⟩
    exact fun n hn hany => hx ((hz.exact x n hn).mp hany)

theorem satisfies_union {k : Kind} {e₁ e₂ : ElementSetSpec k} {a : Bool}
    {r₁ r₂ : PERConstraints k} (ht₁ : r₁.TypesAre fun i => e₁.Constrains a i)
    (ht₂ : r₂.TypesAre fun i => e₂.Constrains a i)
    (heq : ∀ i, e₁.Constrains a i = e₂.Constrains a i) (x : Item k a)
    (h : r₁.Satisfies a x ∨ r₂.Satisfies a x) :
    PERConstraints.Satisfies ⟨unitePERConstraints r₁.value r₂.value,
      unitePERConstraints r₁.size r₂.size,
      unitePERConstraints r₁.permittedAlphabet r₂.permittedAlphabet⟩ a x := by
  have hiff : ∀ i, r₁.type i = .unconstrained ↔ r₂.type i = .unconstrained := by
    intro i
    have hi : r₁.type i = r₂.type i := by
      rw [ht₁ i, ht₂ i]
      exact congrArg extensionOf (heq i)
    rw [hi]
  refine ⟨admitsOption_unite (hiff .value) ?_, admitsOption_unite (hiff .size) ?_,
    fun b hb => admitsOption_unite (hiff .alphabet) ?_⟩
  · exact h.imp And.left And.left
  · exact h.imp (fun h => h.2.1) fun h => h.2.1
  · exact h.imp (fun h => h.2.2 b hb) fun h => h.2.2 b hb

mutual

theorem Constraint.satisfies {k : Kind} : (c : Constraint k) → c.Plain → (outs : Outs) →
    (a : Bool) → c.Sound a → (r : PERConstraints k) → getAllPERFromConstraints c outs a = .ok r →
    (x : Item k a) → c.Admits a x → r.Satisfies a x
  | .none, _, _, _, _, r, h, x, _ => by
    simp only [getAllPERFromConstraints] at h
    rw [← Except.ok.inj h]
    exact ⟨.of_unconstrained rfl _, .of_unconstrained rfl _, fun _ _ => .of_unconstrained rfl _⟩
  | .unextended root, hp, outs, a, hs, r, h, x, hx => by
    simp only [Constraint.Plain] at hp
    simp only [Constraint.Sound] at hs
    simp only [getAllPERFromConstraints] at h
    simp only [Constraint.Admits] at hx
    exact root.satisfies hp outs a hs r h x hx
  | .extendable _, hp, _, _, _, _, _, _, _ => by simp [Constraint.Plain] at hp
  | .extended _ _, hp, _, _, _, _, _, _, _ => by simp [Constraint.Plain] at hp

theorem ElementSetSpec.satisfies {k : Kind} : (e : ElementSetSpec k) → e.Plain → (outs : Outs) →
    (a : Bool) → e.Sound a → (r : PERConstraints k) →
    getAllPERFromElementSetSpecs e outs a = .ok r → (x : Item k a) → e.Admits a x →
    r.Satisfies a x
  | .intersection e₁ e₂, hp, outs, a, hs, r, h, x, hx => by
    simp only [ElementSetSpec.Plain] at hp
    simp only [ElementSetSpec.Sound] at hs
    simp only [ElementSetSpec.Admits] at hx
    obtain ⟨r₁, r₂, h₁, h₂, rfl⟩ := run_intersection h
    obtain ⟨hv₁, hs₁, ha₁⟩ := e₁.satisfies hp.1 {} a hs.1 r₁ h₁ x hx.1
    obtain ⟨hv₂, hs₂, ha₂⟩ := e₂.satisfies hp.2 {} a hs.2 r₂ h₂ x hx.2
    exact ⟨admitsOption_intersect hv₁ hv₂, admitsOption_intersect hs₁ hs₂,
      fun b hb => admitsOption_intersect (ha₁ b hb) (ha₂ b hb)⟩
  | .union e₁ e₂, hp, outs, a, hs, r, h, x, hx => by
    simp only [ElementSetSpec.Plain] at hp
    simp only [ElementSetSpec.Sound] at hs
    simp only [ElementSetSpec.Admits] at hx
    obtain ⟨r₁, r₂, h₁, h₂, rfl⟩ := run_union h
    refine satisfies_union (e₁.types hp.1 {} a r₁ h₁) (e₂.types hp.2 {} a r₂ h₂) hs.2.2 x ?_
    exact hx.imp (e₁.satisfies hp.1 {} a hs.1 r₁ h₁ x) (e₂.satisfies hp.2 {} a hs.2.1 r₂ h₂ x)
  | .allExcept e, hp, outs, a, hs, r, h, x, hx => by
    simp only [ElementSetSpec.Plain] at hp
    simp only [ElementSetSpec.Admits] at hx
    obtain ⟨r₁, h₁, rfl⟩ := run_allExcept h
    exact satisfies_allExcept hp h₁ hs x hx
  | .exclusion e₁ e₂, hp, outs, a, hs, r, h, x, hx => by
    simp only [ElementSetSpec.Plain] at hp
    simp only [ElementSetSpec.Admits] at hx
    obtain ⟨r₁, r₂, h₁, h₂, rfl⟩ := run_exclusion h
    have hs₁ : e₁.Sound a := by
      simp only [ElementSetSpec.Sound] at hs
      exact hs.1
    exact satisfies_exclusion hp.1 hp.2 h₁ h₂ hs x (e₁.satisfies hp.1 {} a hs₁ r₁ h₁ x hx.1) hx.2
  | .subtypeElement s, hp, outs, a, hs, r, h, x, hx => by
    simp only [ElementSetSpec.Plain] at hp
    simp only [ElementSetSpec.Sound] at hs
    simp only [ElementSetSpec.Admits] at hx
    simp only [getAllPERFromElementSetSpecs] at h
    exact s.satisfies hp outs a hs r h x hx

theorem SubtypeElement.satisfies {k : Kind} : (s : SubtypeElement k) → s.Plain → (outs : Outs) →
    (a : Bool) → s.Sound a → (r : PERConstraints k) →
    getAllPERFromSubtypeElements s outs a = .ok r → (x : Item k a) → s.Admits a x →
    r.Satisfies a x
  | .valueRange lower upper, _, _, _, _, r, h, x, hx => by
    simp only [SubtypeElement.Admits] at hx
    obtain ⟨b, hb, hlo, hup⟩ := hx
    rw [run_valueRange h]
    exact ⟨fun _ => ⟨b, hb, _, List.mem_cons_self, hlo, hup⟩, .of_unconstrained rfl _,
      fun _ _ => .of_unconstrained rfl _⟩
  | .singleValue v, _, _, a, hs, r, h, x, hx => by
    simp only [SubtypeElement.Sound] at hs
    simp only [SubtypeElement.Admits] at hx
    rw [run_singleValue h]
    exact ⟨fun _ => hasAny_singleValue k a v hs x hx, .of_unconstrained rfl _,
      fun _ _ => .of_unconstrained rfl _⟩
  | .size c, hp, outs, a, hs, r, h, x, hx => by
    simp only [SubtypeElement.Plain] at hp
    simp only [SubtypeElement.Sound] at hs
    simp only [SubtypeElement.Admits] at hx
    obtain ⟨rfl, -, rc, hrc, rfl⟩ := run_size h
    obtain ⟨n, hn, hxn⟩ := hx
    have hsat := c.satisfies hp _ false hs rc hrc n hxn
    refine ⟨.of_unconstrained rfl _, ?_, fun _ _ => .of_unconstrained rfl _⟩
    rw [hn]
    exact hsat.1
  | .permittedAlphabet c, hp, outs, a, hs, r, h, x, hx => by
    simp only [SubtypeElement.Plain] at hp
    simp only [SubtypeElement.Sound] at hs
    simp only [SubtypeElement.Admits] at hx
    obtain ⟨rfl, rc, hrc, rfl⟩ := run_permittedAlphabet h
    exact ⟨.of_unconstrained rfl _, .of_unconstrained rfl _,
      fun b hb => (c.satisfies hp _ true hs rc hrc b (hx b hb)).1⟩
  | .containedSubtype c, hp, outs, false, hs, r, h, x, hx => by
    simp only [SubtypeElement.Plain] at hp
    simp only [SubtypeElement.Sound, Bool.false_eq_true, false_or] at hs
    simp only [SubtypeElement.Admits, lift] at hx
    obtain ⟨rc, hrc, rfl⟩ := run_containedSubtype h
    have ht := c.types hp outs false rc hrc
    have hsat := c.satisfies hp outs false hs rc hrc x hx
    rw [type_dropExtensions (ht .value), type_dropExtensions (ht .size),
      type_dropExtensions (ht .alphabet)]
    exact hsat
  | .containedSubtype c, hp, outs, true, _, r, h, x, _ => by
    simp only [SubtypeElement.Plain] at hp
    obtain ⟨rc, hrc, rfl⟩ := run_containedSubtype_permAlpha h
    have ht := c.types hp _ true rc hrc .alphabet
    simp only [c.constrains_permAlpha] at ht
    refine ⟨?_, .of_unconstrained rfl _, fun _ _ => .of_unconstrained rfl _⟩
    rw [type_dropExtensions ht]
    exact .of_unconstrained ht _
  | .notVisible _, _, _, _, _, r, h, x, _ => by
    simp only [getAllPERFromSubtypeElements] at h
    rw [← Except.ok.inj h]
    exact ⟨.of_unconstrained rfl _, .of_unconstrained rfl _, fun _ _ => .of_unconstrained rfl _⟩
  | .elementSetSpec e, hp, outs, a, hs, r, h, x, hx => by
    simp only [SubtypeElement.Plain] at hp
    simp only [SubtypeElement.Sound] at hs
    simp only [SubtypeElement.Admits] at hx
    simp only [getAllPERFromSubtypeElements] at h
    exact e.satisfies hp outs a hs r h x hx

end

end SdkTools.Asn1
