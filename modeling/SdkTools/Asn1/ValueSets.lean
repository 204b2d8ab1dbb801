import SdkTools.Asn1.Constraints

/-!
# Value sets

What the constraint elements admit, and the union of ranges that a spec made of
single values and value ranges stands for.
-/

namespace SdkTools.Asn1

set_option autoImplicit false

open SdkTools.Lib.Ranges

universe u

section Ends

variable {α : Type u} [BoundValue α]

def LowerEndPoint.Admits : LowerEndPoint α → α → Prop
  | .min _, _ => True
  | .value v true, x => v < x
  | .value v false, x => v ≤ x

def UpperEndPoint.Admits : UpperEndPoint α → α → Prop
  | .max _, _ => True
  | .value v true, x => x < v
  | .value v false, x => x ≤ v

def ValueConstraint.Has (c : ValueConstraint α) (x : α) : Prop :=
  c.lower.Admits x ∧ c.upper.Admits x

/-- The list is the set, as non-empty ranges in order between which values are missing. -/
def Represents (root : List (ValueConstraint α)) (S : α → Prop) : Prop :=
  (∀ x, (∃ c ∈ root, c.Has x) ↔ S x) ∧
    (∀ c ∈ root, ∃ x, c.Has x) ∧
    root.Pairwise fun c d => ∃ g, (∀ x, c.Has x → x < g) ∧ ∀ x, d.Has x → g < x

end Ends

/-- A value of the type, or in a permitted alphabet one of its characters. -/
abbrev Item (k : Kind) : Bool → Type
  | true => k.Bound
  | false => k.Value

/-- The value as the end of a range. -/
def valueOf : (k : Kind) → (inPermAlpha : Bool) → Item k inPermAlpha → Option k.Bound
  | _, true, b => some b
  | .integer, false, n => some n
  | .string, false, [c] => some c
  | .string, false, _ => none
  | .other, false, _ => none

def sizeOf : (k : Kind) → (inPermAlpha : Bool) → Item k inPermAlpha → Option Int
  | .string, false, s => some s.length
  | .other, false, l => some l.length
  | _, _, _ => none

def charsOf : (k : Kind) → (inPermAlpha : Bool) → Item k inPermAlpha → List k.Bound
  | .string, false, s => s
  | _, _, _ => []

/-- The single value admits itself, and in a permitted alphabet its characters. -/
def admitsSingle : (k : Kind) → (inPermAlpha : Bool) → k.Value → Item k inPermAlpha → Prop
  | _, false, v, x => x = v
  | .integer, true, v, x => x = v
  | .string, true, v, x => x ∈ v
  | .other, true, _, _ => False

/-- Lift a set of values to what it admits: in a permitted alphabet, the
characters of its values. -/
def lift : (k : Kind) → (inPermAlpha : Bool) → (k.Value → Prop) → Item k inPermAlpha → Prop
  | _, false, S, x => S x
  | k, true, S, x => ∃ v, S v ∧ x ∈ charsOf k false v

mutual

def Constraint.Admits {k : Kind} (c : Constraint k) (inPermAlpha : Bool)
    (x : Item k inPermAlpha) : Prop :=
  match c with
  | .none => True
  | .unextended root => root.Admits inPermAlpha x
  | .extendable root => root.Admits inPermAlpha x
  | .extended root additional => root.Admits inPermAlpha x ∨ additional.Admits inPermAlpha x

def ElementSetSpec.Admits {k : Kind} (e : ElementSetSpec k) (inPermAlpha : Bool)
    (x : Item k inPermAlpha) : Prop :=
  match e with
  | .intersection e₁ e₂ => e₁.Admits inPermAlpha x ∧ e₂.Admits inPermAlpha x
  | .union e₁ e₂ => e₁.Admits inPermAlpha x ∨ e₂.Admits inPermAlpha x
  | .allExcept e => ¬ e.Admits inPermAlpha x
  | .exclusion e₁ e₂ => e₁.Admits inPermAlpha x ∧ ¬ e₂.Admits inPermAlpha x
  | .subtypeElement s => s.Admits inPermAlpha x

def SubtypeElement.Admits {k : Kind} (s : SubtypeElement k) (inPermAlpha : Bool)
    (x : Item k inPermAlpha) : Prop :=
  match s with
  | .valueRange lower upper =>
    ∃ b, valueOf k inPermAlpha x = some b ∧ lower.Admits b ∧ upper.Admits b
  | .singleValue v => admitsSingle k inPermAlpha v x
  | .size c => ∃ n, sizeOf k inPermAlpha x = some n ∧ c.Admits false n
  | .permittedAlphabet c => ∀ b ∈ charsOf k inPermAlpha x, c.Admits true b
  | .containedSubtype c => lift k inPermAlpha (fun v => c.Admits false v) x
  | .notVisible p => lift k inPermAlpha (fun v => p v = true) x
  | .elementSetSpec e => e.Admits inPermAlpha x

end

section Pieces

variable {α : Type u} [BoundValue α]

/-- The values two ranges have in common. -/
def meet (r s : Range α) : Range α := ⟨r.lo ⊔ s.lo, r.hi ⊓ s.hi⟩

open Classical in
noncomputable def meetAll (l m : List (Range α)) : List (Range α) :=
  l.flatMap fun r => m.filterMap fun s =>
    if Meets (meet r s).lo (meet r s).hi then some (meet r s) else none

def below : WithBot α → List (Range α)
  | ⊥ => []
  | (v : α) => [⟨⊥, (BoundValue.dec v : α)⟩]

def above : WithTop α → List (Range α)
  | ⊤ => []
  | (v : α) => [⟨(BoundValue.inc v : α), ⊤⟩]

/-- The values outside of all ranges. -/
noncomputable def complement (l : List (Range α)) : List (Range α) :=
  l.foldl (fun acc r => meetAll acc (below r.lo ++ above r.hi)) [⟨⊥, ⊤⟩]

end Pieces

mutual

noncomputable def Constraint.pieces {k : Kind} (inPermAlpha : Bool) (c : Constraint k) :
    List (Range k.Bound) :=
  match c with
  | .unextended root => root.pieces inPermAlpha
  | _ => []

/-- The ranges a spec made of single values and value ranges is the union of. -/
noncomputable def ElementSetSpec.pieces {k : Kind} (inPermAlpha : Bool) (e : ElementSetSpec k) :
    List (Range k.Bound) :=
  match e with
  | .intersection e₁ e₂ => meetAll (e₁.pieces inPermAlpha) (e₂.pieces inPermAlpha)
  | .union e₁ e₂ => e₁.pieces inPermAlpha ++ e₂.pieces inPermAlpha
  | .allExcept e => complement (e.pieces inPermAlpha)
  | .exclusion e₁ e₂ => meetAll (e₁.pieces inPermAlpha) (complement (e₂.pieces inPermAlpha))
  | .subtypeElement s => s.pieces inPermAlpha

noncomputable def SubtypeElement.pieces {k : Kind} (inPermAlpha : Bool) (s : SubtypeElement k) :
    List (Range k.Bound) :=
  match s with
  | .valueRange lower upper => [⟨lower.norm, upper.norm⟩]
  | .singleValue v => (singleValueConstraints k v inPermAlpha).map ValueConstraint.norm
  | .containedSubtype c => c.pieces inPermAlpha
  | .elementSetSpec e => e.pieces inPermAlpha
  | _ => []

end

/-- The values next to the range exist. -/
def Bounded {α : Type u} [BoundValue α] (r : Range α) : Prop :=
  (∀ v : α, r.lo = v → ¬ IsMin v) ∧ ∀ v : α, r.hi = v → ¬ IsMax v

/-- The value an open end point excludes is not the last one on its side. -/
def ValueConstraint.WrapFree {α : Type u} [BoundValue α] (c : ValueConstraint α) : Prop :=
  (∀ v, c.lower = .value v true → ¬ IsMax v) ∧ ∀ v, c.upper = .value v true → ¬ IsMin v

mutual

def Constraint.OnlyValues {k : Kind} (inPermAlpha : Bool) (c : Constraint k) : Prop :=
  match c with
  | .unextended root => root.OnlyValues inPermAlpha
  | _ => False

/-- The spec is made of single values and value ranges. -/
def ElementSetSpec.OnlyValues {k : Kind} (inPermAlpha : Bool) (e : ElementSetSpec k) : Prop :=
  match e with
  | .intersection e₁ e₂ => e₁.OnlyValues inPermAlpha ∧ e₂.OnlyValues inPermAlpha
  | .union e₁ e₂ => e₁.OnlyValues inPermAlpha ∧ e₂.OnlyValues inPermAlpha
  | .allExcept e => e.OnlyValues inPermAlpha
  | .exclusion e₁ e₂ => e₁.OnlyValues inPermAlpha ∧ e₂.OnlyValues inPermAlpha
  | .subtypeElement s => s.OnlyValues inPermAlpha

def SubtypeElement.OnlyValues {k : Kind} (inPermAlpha : Bool) (s : SubtypeElement k) : Prop :=
  match s with
  | .valueRange _ _ => True
  | .singleValue _ => k = .integer ∨ inPermAlpha = true
  | .containedSubtype c => inPermAlpha = false ∧ c.OnlyValues inPermAlpha
  | .elementSetSpec e => e.OnlyValues inPermAlpha
  | _ => False

end

mutual

def Constraint.NoWrap {k : Kind} (inPermAlpha : Bool) (c : Constraint k) : Prop :=
  match c with
  | .unextended root => root.NoWrap inPermAlpha
  | _ => True

/-- No open end excludes everything on its side, and nothing is subtracted that
reaches the least or the greatest value there is. -/
def ElementSetSpec.NoWrap {k : Kind} (inPermAlpha : Bool) (e : ElementSetSpec k) : Prop :=
  match e with
  | .intersection e₁ e₂ => e₁.NoWrap inPermAlpha ∧ e₂.NoWrap inPermAlpha
  | .union e₁ e₂ => e₁.NoWrap inPermAlpha ∧ e₂.NoWrap inPermAlpha
  | .allExcept e => e.NoWrap inPermAlpha ∧ ∀ r ∈ e.pieces inPermAlpha, Bounded r
  | .exclusion e₁ e₂ =>
    e₁.NoWrap inPermAlpha ∧ e₂.NoWrap inPermAlpha ∧ ∀ r ∈ e₂.pieces inPermAlpha, Bounded r
  | .subtypeElement s => s.NoWrap inPermAlpha

def SubtypeElement.NoWrap {k : Kind} (inPermAlpha : Bool) (s : SubtypeElement k) : Prop :=
  match s with
  | .valueRange lower upper => ValueConstraint.WrapFree ⟨lower, upper⟩
  | .containedSubtype c => c.NoWrap inPermAlpha
  | .elementSetSpec e => e.NoWrap inPermAlpha
  | _ => True

end

end SdkTools.Asn1
