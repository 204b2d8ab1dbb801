import SdkTools.Asn1.EndPoints

/-!
# PER-visible constraints

`percons.c`: the value, size and permitted alphabet constraints that the
compiler extracts from a subtype constraint. A list of value constraints is the
union of its ranges.
-/

namespace SdkTools.Asn1

set_option autoImplicit false

universe u

/-- What the types are told apart by: `eType_Integer`, the restricted string
types, and all others. -/
inductive Kind where
  | integer
  | string
  | other
  deriving DecidableEq

/-- The values of a type; those of other types are lists of items (octets, bits, components). -/
abbrev Kind.Value : Kind → Type
  | .integer => Int
  | .string => List Char32
  | .other => List Nat

/-- The values that the ends of a value range can have. Those of strings are of
length 1, and there are none of other types. -/
abbrev Kind.Bound : Kind → Type
  | .integer => Int
  | .string => Char32
  | .other => Empty

instance : BoundValue Empty where
  inc v := v
  dec v := v
  subsequent _ _ := false
  inc_dec v := v.elim
  dec_inc v := v.elim
  lt_iff_inc_le v := v.elim
  lt_iff_le_dec v := v.elim
  subsequent_iff v := v.elim

instance Kind.boundValue : (k : Kind) → BoundValue k.Bound
  | .integer => inferInstanceAs (BoundValue Int)
  | .string => inferInstanceAs (BoundValue Char32)
  | .other => inferInstanceAs (BoundValue Empty)

/-- `Extension_e` -/
inductive Extension where
  | unconstrained
  | unextended
  | extendable
  | extended
  deriving DecidableEq

def Extension.rank : Extension → Nat
  | .unconstrained => 0
  | .unextended => 1
  | .extendable => 2
  | .extended => 3

mutual

/-- `Constraint_t`; a type without constraint has none. -/
inductive Constraint : Kind → Type where
  | none {k : Kind} : Constraint k
  | unextended {k : Kind} (root : ElementSetSpec k) : Constraint k
  | extendable {k : Kind} (root : ElementSetSpec k) : Constraint k
  | extended {k : Kind} (root additional : ElementSetSpec k) : Constraint k

inductive ElementSetSpec : Kind → Type where
  | intersection {k : Kind} (elements1 elements2 : ElementSetSpec k) : ElementSetSpec k
  | union {k : Kind} (elements1 elements2 : ElementSetSpec k) : ElementSetSpec k
  | allExcept {k : Kind} (elements : ElementSetSpec k) : ElementSetSpec k
  | exclusion {k : Kind} (elements1 elements2 : ElementSetSpec k) : ElementSetSpec k
  | subtypeElement {k : Kind} (element : SubtypeElement k) : ElementSetSpec k

inductive SubtypeElement : Kind → Type where
  | valueRange {k : Kind} (lower : LowerEndPoint k.Bound) (upper : UpperEndPoint k.Bound) :
      SubtypeElement k
  | singleValue {k : Kind} (value : k.Value) : SubtypeElement k
  | size {k : Kind} (constraints : Constraint .integer) : SubtypeElement k
  | permittedAlphabet {k : Kind} (constraints : Constraint k) : SubtypeElement k
  /-- The constraints are those of the referenced type. -/
  | containedSubtype {k : Kind} (constraints : Constraint k) : SubtypeElement k
  /-- The elements that are not PER-visible, with the values they admit. -/
  | notVisible {k : Kind} (admits : k.Value → Bool) : SubtypeElement k
  | elementSetSpec {k : Kind} (elements : ElementSetSpec k) : SubtypeElement k

end

/-- One of the three constraints of `PERConstraints_t`. -/
structure PERConstraint (α : Type u) where
  type : Extension := .unconstrained
  root : List (ValueConstraint α) := []
  additional : List (ValueConstraint α) := []

structure PERConstraints (k : Kind) where
  value : PERConstraint k.Bound := {}
  size : PERConstraint Int := {}
  permittedAlphabet : PERConstraint k.Bound := {}

/-- How the compiler stops. -/
inductive Failure where
  | constraintTooComplex
  | nullPointer
  deriving DecidableEq

/-- Which pointers of a triple (type, root, additional) a caller passes. -/
inductive Out where
  | full
  | rootOnly
  | absent
  deriving DecidableEq

structure Outs where
  value : Out := .full
  size : Out := .full
  permittedAlphabet : Out := .full

section ValueConstraints

variable {α : Type u} [BoundValue α]

def intersectValueConstraint (v₁ v₂ : ValueConstraint α) : Option (ValueConstraint α) :=
  let lo := if cmpLowerEndPoint v₁.lower v₂.lower ≥ 0 then v₁.lower else v₂.lower
  let up := if cmpUpperEndPoint v₁.upper v₂.upper ≤ 0 then v₁.upper else v₂.upper
  if lo.isMin || up.isMax || decide (cmpLowerUpperEndPoint lo up ≤ 0) then some ⟨lo, up⟩ else none

def intersectValueConstraints (val₁ val₂ : List (ValueConstraint α)) : List (ValueConstraint α) :=
  val₁.flatMap fun v₁ => val₂.filterMap fun v₂ => intersectValueConstraint v₁ v₂

def uniteValueConstraints (val₁ val₂ : List (ValueConstraint α)) : List (ValueConstraint α) :=
  val₁ ++ val₂

/-- The values above the upper end. -/
def negateUpper : UpperEndPoint α → Option (ValueConstraint α)
  | .max _ => none
  | .value v o => some ⟨.value v (!o), .max false⟩

/-- The values below the lower end. -/
def negateLower : LowerEndPoint α → Option (ValueConstraint α)
  | .min _ => none
  | .value v o => some ⟨.min false, .value v (!o)⟩

def negateLoop (result : List (ValueConstraint α)) :
    List (ValueConstraint α) → List (ValueConstraint α)
  | [] => result
  | c :: val =>
    match (negateLower c.lower).toList ++ (negateUpper c.upper).toList with
    | [] => []
    | vc => negateLoop (intersectValueConstraints result vc) val

def negateValueConstraints (val : List (ValueConstraint α)) : List (ValueConstraint α) :=
  negateLoop [⟨.min false, .max false⟩] val

def excludeValueConstraints (val₁ val₂ : List (ValueConstraint α)) : List (ValueConstraint α) :=
  intersectValueConstraints val₁ (negateValueConstraints val₂)

def intersectPERConstraints (c₁ c₂ : PERConstraint α) : PERConstraint α :=
  if c₁.type = .unconstrained then c₂
  else if c₂.type = .unconstrained then c₁
  else
    let type := if c₁.type.rank < c₂.type.rank then c₁.type else c₂.type
    { type
      root := intersectValueConstraints c₁.root c₂.root
      additional :=
        if type = .extended then intersectValueConstraints c₁.additional c₂.additional else [] }

def unitePERConstraints (c₁ c₂ : PERConstraint α) : PERConstraint α :=
  if c₁.type = .unconstrained then c₂
  else if c₂.type = .unconstrained then c₁
  else
    let type := if c₁.type.rank > c₂.type.rank then c₁.type else c₂.type
    { type
      root := uniteValueConstraints c₁.root c₂.root
      additional :=
        if type = .extended then
          uniteValueConstraints (if c₁.additional = [] then c₁.root else c₁.additional)
            (if c₂.additional = [] then c₂.root else c₂.additional)
        else [] }

def negatePERConstraints (c : PERConstraint α) : PERConstraint α where
  type := c.type
  root := negateValueConstraints c.root
  additional := if c.type = .extended then negateValueConstraints c.additional else []

def excludePERConstraints (c₁ c₂ : PERConstraint α) : PERConstraint α :=
  if c₁.type = .unconstrained then c₂
  else if c₂.type = .unconstrained then c₁
  else
    let type := if c₁.type.rank < c₂.type.rank then c₁.type else c₂.type
    { type
      root := excludeValueConstraints c₁.root c₂.root
      additional :=
        if type = .extended then excludeValueConstraints c₁.additional c₂.additional else [] }

/-- Drop the extensions, for contained subtype constraints. -/
def dropExtensions (c : PERConstraint α) : PERConstraint α :=
  if c.type.rank > Extension.unextended.rank then { c with type := .unextended, additional := [] }
  else c

/-- Mark as extendable. -/
def markExtendable (out : Out) (c : PERConstraint α) : Except Failure (PERConstraint α) :=
  if out = .absent ∨ c.root = [] then .ok c
  else if out = .rootOnly then .error .nullPointer
  else if c.type.rank < Extension.extendable.rank then .ok { c with type := .extendable }
  else .ok c

/-- Mark as extended, with the root of the extension addition. -/
def markExtended (out : Out) (c : PERConstraint α) (vc : List (ValueConstraint α)) :
    Except Failure (PERConstraint α) :=
  if vc = [] then .ok c
  else if out = .full then .ok { c with type := .extended, additional := vc }
  else .error .nullPointer

/-- Extension additions given twice. -/
def extendedTwice (out : Out) (c : PERConstraint α) (vc : List (ValueConstraint α)) : Bool :=
  decide (vc ≠ [] ∧ out = .full ∧ c.additional ≠ [])

end ValueConstraints

/-- The constraint that a single value is; in a permitted alphabet a string is
the union of its characters. -/
def singleValueConstraints : (k : Kind) → k.Value → Bool → List (ValueConstraint k.Bound)
  | .integer, v, _ => [⟨.value v false, .value v false⟩]
  | .string, v, true => v.map fun c => ⟨.value c false, .value c false⟩
  | .string, _, false => []
  | .other, _, _ => []

mutual

def getAllPERFromConstraints {k : Kind} (constraints : Constraint k) (outs : Outs)
    (inPermAlpha : Bool) : Except Failure (PERConstraints k) :=
  match constraints with
  | .none => .ok {}
  | .unextended root => getAllPERFromElementSetSpecs root outs inPermAlpha
  | .extendable root => do
    let r ← getAllPERFromElementSetSpecs root outs inPermAlpha
    let value ← markExtendable outs.value r.value
    let size ← markExtendable outs.size r.size
    let permittedAlphabet ← markExtendable outs.permittedAlphabet r.permittedAlphabet
    .ok { value, size, permittedAlphabet }
  | .extended root additional => do
    let r ← getAllPERFromElementSetSpecs root outs inPermAlpha
    let a ← getAllPERFromElementSetSpecs additional ⟨.rootOnly, .rootOnly, .rootOnly⟩ inPermAlpha
    if extendedTwice outs.value r.value a.value.root || extendedTwice outs.size r.size a.size.root ||
        extendedTwice outs.permittedAlphabet r.permittedAlphabet a.permittedAlphabet.root then
      .error .constraintTooComplex
    else
      let value ← markExtended outs.value r.value a.value.root
      let size ← markExtended outs.size r.size a.size.root
      let permittedAlphabet ←
        markExtended outs.permittedAlphabet r.permittedAlphabet a.permittedAlphabet.root
      .ok { value, size, permittedAlphabet }

def getAllPERFromElementSetSpecs {k : Kind} (element : ElementSetSpec k) (outs : Outs)
    (inPermAlpha : Bool) : Except Failure (PERConstraints k) :=
  match element with
  | .intersection elements1 elements2 => do
    let r₁ ← getAllPERFromElementSetSpecs elements1 {} inPermAlpha
    let r₂ ← getAllPERFromElementSetSpecs elements2 {} inPermAlpha
    .ok {
      value := intersectPERConstraints r₁.value r₂.value
      size := intersectPERConstraints r₁.size r₂.size
      permittedAlphabet := intersectPERConstraints r₁.permittedAlphabet r₂.permittedAlphabet }
  | .union elements1 elements2 => do
    let r₁ ← getAllPERFromElementSetSpecs elements1 {} inPermAlpha
    let r₂ ← getAllPERFromElementSetSpecs elements2 {} inPermAlpha
    .ok {
      value := unitePERConstraints r₁.value r₂.value
      size := unitePERConstraints r₁.size r₂.size
      permittedAlphabet := unitePERConstraints r₁.permittedAlphabet r₂.permittedAlphabet }
  | .allExcept elements => do
    let r ← getAllPERFromElementSetSpecs elements {} inPermAlpha
    .ok {
      value := negatePERConstraints r.value
      size := negatePERConstraints r.size
      permittedAlphabet := negatePERConstraints r.permittedAlphabet }
  | .exclusion elements1 elements2 => do
    let r₁ ← getAllPERFromElementSetSpecs elements1 {} inPermAlpha
    let r₂ ← getAllPERFromElementSetSpecs elements2 {} inPermAlpha
    .ok {
      value := excludePERConstraints r₁.value r₂.value
      size := excludePERConstraints r₁.size r₂.size
      permittedAlphabet := excludePERConstraints r₁.permittedAlphabet r₂.permittedAlphabet }
  | .subtypeElement element => getAllPERFromSubtypeElements element outs inPermAlpha

def getAllPERFromSubtypeElements {k : Kind} (element : SubtypeElement k) (outs : Outs)
    (inPermAlpha : Bool) : Except Failure (PERConstraints k) :=
  match element with
  | .valueRange lower upper =>
    if outs.value = .absent then .error .constraintTooComplex
    else .ok { value := { type := .unextended, root := [⟨lower, upper⟩] } }
  | .singleValue v =>
    if outs.value = .absent then .error .constraintTooComplex
    else .ok { value := { type := .unextended, root := singleValueConstraints k v inPermAlpha } }
  | .size constraints =>
    if outs.size = .absent ∨ inPermAlpha then .error .constraintTooComplex
    else do
      let r ← getAllPERFromConstraints constraints ⟨outs.size, .absent, .absent⟩ inPermAlpha
      .ok { size := r.value }
  | .permittedAlphabet constraints =>
    if outs.permittedAlphabet = .absent ∨ inPermAlpha then .error .constraintTooComplex
    else do
      let r ← getAllPERFromConstraints constraints ⟨outs.permittedAlphabet, .absent, .absent⟩ true
      .ok { permittedAlphabet := r.value }
  | .containedSubtype constraints =>
    if inPermAlpha then do
      -- the permitted alphabet of the referenced type
      let r ← getAllPERFromConstraints constraints ⟨.full, .full, outs.value⟩ inPermAlpha
      .ok { value := dropExtensions r.permittedAlphabet }
    else do
      let r ← getAllPERFromConstraints constraints outs inPermAlpha
      .ok {
        value := dropExtensions r.value
        size := dropExtensions r.size
        permittedAlphabet := dropExtensions r.permittedAlphabet }
  | .notVisible _ => .ok {}
  | .elementSetSpec elements => getAllPERFromElementSetSpecs elements outs inPermAlpha

end

section Reduce

variable {α : Type u} [BoundValue α]

/-- The loop over the sorted list, with `lower` and `upper` of the range under construction. -/
def reduceLoop (lower : LowerEndPoint α) (upper : UpperEndPoint α) :
    List (ValueConstraint α) → List (ValueConstraint α)
  | [] => [⟨lower, upper⟩]
  | p :: l =>
    if checkEndPointsJoin upper p.lower then reduceLoop lower p.upper l
    else ⟨lower, upper⟩ :: reduceLoop p.lower p.upper l

end Reduce

end SdkTools.Asn1
