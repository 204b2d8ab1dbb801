import SdkTools.Asn1.Constraints
import SdkTools.Asn1.IntxFits

/-!
# PER sizes of integers and alphabets

`ExaminePERType_Integer` of `per.c` with the choice of the C type in `util.c`, and
`CountValues` of `percons.c`. The bounds are octet strings; the comparisons of end points
are those of their values.
-/

namespace SdkTools.Asn1

set_option autoImplicit false

open Lib.TwosComplement

/-- The value of an integer end point. -/
abbrev IntBound := { v : Intx // v ≠ [] }

def IntBound.toInt (v : IntBound) : Int := intOf v.val

def LowerEndPoint.ints : LowerEndPoint IntBound → LowerEndPoint Int
  | .min o => .min o
  | .value v o => .value v.toInt o

def UpperEndPoint.ints : UpperEndPoint IntBound → UpperEndPoint Int
  | .max o => .max o
  | .value v o => .value v.toInt o

def ValueConstraint.ints (c : ValueConstraint IntBound) : ValueConstraint Int :=
  ⟨c.lower.ints, c.upper.ints⟩

/-! ## The C type -/

inductive IntType where
  | uint16
  | uint32
  | uint64
  | int8
  | int16
  | int32
  | int64
  | intx
  deriving DecidableEq

/-- `GetOctets` -/
def IntType.octets : IntType → Nat
  | .int8 => 1
  | .uint16 | .int16 => 2
  | .uint32 | .int32 => 4
  | .uint64 | .int64 => 8
  | .intx => 0

/-- The name starts with `ASN1uint`; otherwise it starts with `ASN1int`. -/
def IntType.isUnsigned : IntType → Bool
  | .uint16 | .uint32 | .uint64 => true
  | _ => false

structure Settings where
  Has64Bits : Bool
  IntegerRestriction : IntType
  UIntegerRestriction : IntType
  /-- `Alignment == eAlignment_Unaligned` -/
  unaligned : Bool

/-- `ASN1intxisint8` and so on. The octet read behind a string of sign octets decides between
0 and 1 octets, which is in the range of every type. -/
def isSignedType (octets : Nat) (val : Intx) : Bool := (isSigned octets val).getD true

def GetIType (env : Settings) (lb ub : Intx) : IntType × Int :=
  if ASN1intxisuint8 lb && ASN1intxisuint8 ub then (.uint16, 1)
  else if isSignedType 1 lb && isSignedType 1 ub then (.int8, -1)
  else if ASN1intxisuint16 lb && ASN1intxisuint16 ub then (.uint16, 1)
  else if isSignedType 2 lb && isSignedType 2 ub then (.int16, -1)
  else if ASN1intxisuint32 lb && ASN1intxisuint32 ub then (.uint32, 1)
  else if isSignedType 4 lb && isSignedType 4 ub then (.int32, -1)
  else if env.Has64Bits && (ASN1intxisuint64 lb && ASN1intxisuint64 ub) then (.uint64, 1)
  else if env.Has64Bits && (isSignedType 8 lb && isSignedType 8 ub) then (.int64, -1)
  else if (lb.headD 0).toNat ≥ 0x7f ∨ (ub.headD 0).toNat ≥ 0x7f then (.intx, -1)
  else (.intx, 1)

/-- `none` is the end point with the flag `eEndPoint_Max`. -/
def minLower (lower : Option (LowerEndPoint IntBound)) (lo : LowerEndPoint IntBound) :
    Option (LowerEndPoint IntBound) :=
  match lower with
  | none => some lo
  | some l => if cmpLowerEndPoint l.ints lo.ints > 0 then some lo else some l

/-- `none` is the end point with the flag `eEndPoint_Min`. -/
def maxUpper (upper : Option (UpperEndPoint IntBound)) (up : UpperEndPoint IntBound) :
    Option (UpperEndPoint IntBound) :=
  match upper with
  | none => some up
  | some u => if cmpUpperEndPoint u.ints up.ints < 0 then some up else some u

def GetMinMax (constraints : List (ValueConstraint IntBound))
    (bounds : Option (LowerEndPoint IntBound) × Option (UpperEndPoint IntBound)) :
    Option (LowerEndPoint IntBound) × Option (UpperEndPoint IntBound) :=
  constraints.foldl (fun b vc => (minLower b.1 vc.lower, maxUpper b.2 vc.upper)) bounds

def GetIntType (env : Settings) (lower : LowerEndPoint IntBound) (upper : UpperEndPoint IntBound) :
    IntType × Int :=
  match lower, upper with
  | .value lb _, .value ub _ => GetIType env lb.val ub.val
  | _, _ =>
    let inttype :=
      match lower with
      | .value lb _ =>
        if ASN1intx_cmp lb.val [0] ≥ 0 then env.UIntegerRestriction else env.IntegerRestriction
      | .min _ => env.IntegerRestriction
    (inttype, if inttype.isUnsigned then 1 else -1)

/-- What the functions read of an integer type. -/
structure IntegerType where
  fIntx : Bool
  value : PERConstraint IntBound

/-- The type, and `*sign`, which the directive leaves as it was. -/
def GetIntegerType (env : Settings) (type : IntegerType) (sign : Int) : IntType × Int :=
  if type.fIntx then (.intx, sign)
  else
    let bounds := GetMinMax type.value.root (none, none)
    let bounds :=
      if type.value.type = .extended then GetMinMax type.value.additional bounds else bounds
    GetIntType env (bounds.1.getD (.min false)) (bounds.2.getD (.max false))

/-! ## The field -/

inductive PERSTIConstraint where
  | unconstrained
  | semiconstrained
  | upperconstrained
  | constrained
  deriving DecidableEq

inductive PERSTIData where
  | null
  | unsigned
  | integer
  deriving DecidableEq

inductive PERSTIAlignment where
  | bitAligned
  | octetAligned
  deriving DecidableEq

inductive PERSTILength where
  | noLength
  | length
  deriving DecidableEq

/-- The fields of a `PERSimpleTypeInfo_t` that are set, as `ExaminePERType` leaves them. -/
structure PERRoot where
  Data : PERSTIData := .null
  Constraint : PERSTIConstraint := .unconstrained
  LowerVal : Intx := [0]
  UpperVal : Intx := [0]
  NBits : Nat := 1
  Alignment : PERSTIAlignment := .octetAligned
  Length : PERSTILength := .noLength
  LConstraint : PERSTIConstraint := .semiconstrained
  LLowerVal : Nat := 0
  LUpperVal : Nat := 0

structure PERTypeInfo where
  type : Extension
  NOctets : Nat
  Root : PERRoot
  AdditionalData : PERSTIData

/-- The field of a constrained integer. -/
def constrainedField (env : Settings) (root : PERRoot) (range : Intx) : PERRoot :=
  if ASN1intx_cmp range [1] = 0 then { root with NBits := 0 }
  else if ASN1intx_cmp range [1, 0] < 0 ∨ env.unaligned then
    { root with NBits := ASN1intx_log2 range, Alignment := .bitAligned }
  else if ASN1intx_cmp range [1, 0] = 0 then { root with NBits := 8 }
  else if ASN1intx_cmp range [1, 0, 0] ≤ 0 then { root with NBits := 16 }
  else
    { root with
      NBits := 8, Length := .length, LConstraint := .constrained, LLowerVal := 1
      LUpperVal := ASN1intx_log256 range }

def lengthField (root : PERRoot) : PERRoot :=
  { root with NBits := 8, Length := .length, LLowerVal := 1 }

/-- `sign` is what the local variable holds before it is set. -/
def ExaminePERType_Integer (env : Settings) (type : IntegerType) (sign : Int) : PERTypeInfo :=
  let per := type.value
  let bounds :=
    if per.type = .unconstrained then (.min false, .max false)
    else
      let b := GetMinMax per.root (none, none)
      (b.1.getD (.min false), b.2.getD (.max false))
  let (inttype, sign) := GetIntegerType env type sign
  let root : PERRoot := { Data := if sign > 0 then .unsigned else .integer }
  let root :=
    match bounds with
    | (.value lb _, .value ub _) =>
      let range := ASN1intx_inc (ASN1intx_sub ub.val lb.val)
      constrainedField env
        { root with Constraint := .constrained, LowerVal := lb.val, UpperVal := ub.val } range
    | (.value lb _, .max _) =>
      lengthField { root with Constraint := .semiconstrained, LowerVal := lb.val }
    | (.min _, .value ub _) =>
      lengthField { root with Constraint := .upperconstrained, UpperVal := ub.val }
    | (.min _, .max _) => lengthField root
  { type := if per.type = .unconstrained then .unextended else per.type
    NOctets := inttype.octets
    Root := root
    AdditionalData := root.Data }

/-! ## The number of values -/

/-- The loop of `ASN1intx_setuint32`. -/
def dropZeros : List Octet → List Octet
  | x :: y :: v => if x = 0 ∧ y.toNat ≤ 0x7f then dropZeros (y :: v) else x :: y :: v
  | v => v

def ASN1intx_setuint32 (val : Char32) : Intx :=
  dropZeros [0, BitVec.ofNat 8 (val.val / 2 ^ 24), BitVec.ofNat 8 (val.val / 2 ^ 16),
    BitVec.ofNat 8 (val.val / 2 ^ 8), BitVec.ofNat 8 val.val]

/-- `SubstractValues` for integers. -/
def substractIntegers (v1 v2 : IntBound) : Intx := ASN1intx_sub v1.val v2.val

/-- `SubstractValues` for characters. -/
def substractCharacters (v1 v2 : Char32) : Intx := ASN1intx_setuint32 (v2 - v1)

def countLoop {α : Type} (substract : α → α → Intx) :
    List (ValueConstraint α) → Intx → Option Intx
  | [], n => some n
  | v :: l, n =>
    match v.lower, v.upper with
    | .value lo _, .value up _ =>
      countLoop substract l (ASN1intx_inc (ASN1intx_add n (substract lo up)))
    | _, _ => none

def CountValues {α : Type} (substract : α → α → Intx) (v : List (ValueConstraint α)) :
    Option Intx :=
  countLoop substract v [0]

end SdkTools.Asn1
