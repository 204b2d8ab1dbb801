import SdkTools.Types

/-!
# Integers of any size in the ASN.1 compiler

`intx.c`: arithmetic on two's complement octet strings. A loop over the octets
from the last one down is a recursion that handles the tail first.
-/

namespace SdkTools.Asn1

set_option autoImplicit false

abbrev Octet := UCHAR

/-- The `value` of an `ASN1intx_t`; it has at least one octet. -/
abbrev Intx := List Octet

/-- `arg->value[0] > 0x7f ? 0xff : 0x00` -/
def signOctet : Intx → Octet
  | [] => 0
  | x :: _ => if x.toNat > 0x7f then 0xff else 0

/-- The octets of a value as an operation on `length` octets reads them. -/
def extended (length : Nat) (arg : Intx) : List Octet :=
  List.replicate (length - arg.length) (signOctet arg) ++ arg

/-- The number of octets equal to `w` in front of another one, or of the last one. -/
def dropCount (w : Octet) : List Octet → Nat
  | [] => 0
  | [_] => 0
  | x :: y :: v => if x ≠ w then 0 else dropCount w (y :: v) + 1

/-- The end of every operation: octets that are not needed are dropped. -/
def trim (v : List Octet) : Intx :=
  let w := signOctet v
  let i := dropCount w v
  let i := if (v.getD i 0 ^^^ w) &&& 0x80 ≠ 0 then i - 1 else i
  v.drop i

/-- `(ASN1octet_t)w` -/
def toOctet (w : Int) : Octet := BitVec.ofInt 8 w

def addLoop : List Octet → List Octet → List Octet × Int
  | x :: xs, y :: ys =>
    let rest := addLoop xs ys
    let w : Int := x.toNat + y.toNat + rest.2
    (toOctet w :: rest.1, if w > 0xff then 1 else 0)
  | _, _ => ([], 0)

def ASN1intx_add (arg1 arg2 : Intx) : Intx :=
  let l := max arg1.length arg2.length + 1
  trim (addLoop (extended l arg1) (extended l arg2)).1

def subLoop : List Octet → List Octet → List Octet × Int
  | x :: xs, y :: ys =>
    let rest := subLoop xs ys
    let w : Int := x.toNat - y.toNat - rest.2
    (toOctet w :: rest.1, if w < 0 then 1 else 0)
  | _, _ => ([], 0)

def ASN1intx_sub (arg1 arg2 : Intx) : Intx :=
  let l := max arg1.length arg2.length + 1
  trim (subLoop (extended l arg1) (extended l arg2)).1

def addOctetLoop (arg2 : Octet) : List Octet → List Octet × Int
  | [] => ([], arg2.toNat)
  | x :: xs =>
    let rest := addOctetLoop arg2 xs
    let w : Int := x.toNat + rest.2
    (toOctet w :: rest.1, if w > 0xff then 1 else 0)

def ASN1intx_addoctet (arg1 : Intx) (arg2 : Octet) : Intx :=
  let sum := addOctetLoop arg2 arg1
  trim ((if (arg1.headD 0).toNat > 0x7f then toOctet (0xff + sum.2) else toOctet sum.2) :: sum.1)

def subOctetLoop (arg2 : Octet) : List Octet → List Octet × Int
  | [] => ([], arg2.toNat)
  | x :: xs =>
    let rest := subOctetLoop arg2 xs
    let w : Int := x.toNat - rest.2
    (toOctet w :: rest.1, if w < 0 then 1 else 0)

def ASN1intx_suboctet (arg1 : Intx) (arg2 : Octet) : Intx :=
  let difference := subOctetLoop arg2 arg1
  trim ((if (arg1.headD 0).toNat > 0x7f then toOctet (0xff - difference.2)
    else toOctet difference.2) :: difference.1)

def mulOctetLoop (arg2 : Octet) : List Octet → List Octet × Int
  | [] => ([], 0)
  | x :: xs =>
    let rest := mulOctetLoop arg2 xs
    let w : Int := x.toNat * arg2.toNat + rest.2
    (toOctet w :: rest.1, w / 256)

def ASN1intx_muloctet (arg1 : Intx) (arg2 : Octet) : Intx :=
  let product := mulOctetLoop arg2 arg1
  trim (toOctet (if (arg1.headD 0).toNat > 0x7f then 0xff * arg2.toNat + product.2
    else product.2) :: product.1)

/-- The increment loop, and whether it has come to its `break`. -/
def incLoop : List Octet → List Octet × Bool
  | [] => ([], false)
  | x :: xs =>
    let rest := incLoop xs
    if rest.2 then (x :: rest.1, true) else ((x + 1) :: rest.1, decide (x + 1 ≠ 0))

def ASN1intx_inc (val : Intx) : Intx := trim (incLoop (signOctet val :: val)).1

/-- The decrement loop, and whether it has come to its `break`. -/
def decLoop : List Octet → List Octet × Bool
  | [] => ([], false)
  | x :: xs =>
    let rest := decLoop xs
    if rest.2 then (x :: rest.1, true) else ((x - 1) :: rest.1, decide (x ≠ 0))

def ASN1intx_dec (val : Intx) : Intx := trim (decLoop (signOctet val :: val)).1

def ASN1intx_neg (arg : Intx) : Intx := ASN1intx_inc (arg.map (~~~ ·))

/-- The first difference of two octets. -/
def cmpLoop : List Octet → List Octet → Int
  | x :: xs, y :: ys =>
    let d : Int := x.toNat - y.toNat
    if d ≠ 0 then d else cmpLoop xs ys
  | _, _ => 0

def ASN1intx_cmp (arg1 arg2 : Intx) : Int :=
  let s1 := signOctet arg1
  let s2 := signOctet arg2
  if s1 ≠ s2 then if s1 = 0xff then -1 else 1
  else
    let l := max arg1.length arg2.length
    cmpLoop (extended l arg1) (extended l arg2)

end SdkTools.Asn1
