import SdkTools.Asn1.IntxArithmetic
import Mathlib.Data.Nat.Size

/-!
# Sizes of integers in the ASN.1 compiler

The part of `intx.c` that measures values: `ASN1intx_octets`, the checks whether a value
fits one of the fixed types, the conversions to them, and the logarithms.
-/

namespace SdkTools.Asn1

set_option autoImplicit false

/-- The loops that look for the first octet other than `s`. -/
def leading (s : Octet) (v : List Octet) : Nat := (v.takeWhile (· == s)).length

/-- Nothing if the octet behind the last one is read. -/
def ASN1intx_octets (val : Intx) : Option Nat := do
  let s := signOctet val
  let i := leading s val
  let i ← if i ≠ 0 then do
      let x ← val[i]?
      some (if (x ^^^ s) &&& 0x80 ≠ 0 then i - 1 else i)
    else some i
  some (val.length - i)

def ASN1intx_uoctets (val : Intx) : Nat := val.length - leading 0 val

/-! ## Checks -/

def isUnsigned (octets : Nat) (val : Intx) : Bool :=
  if (val.headD 0).toNat > 0x7f then false else decide (ASN1intx_uoctets val ≤ octets)

def isSigned (octets : Nat) (val : Intx) : Option Bool :=
  (ASN1intx_octets val).map fun n => decide (n ≤ octets)

def ASN1intxisuint64 : Intx → Bool := isUnsigned 8
def ASN1intxisuint32 : Intx → Bool := isUnsigned 4
def ASN1intxisuint16 : Intx → Bool := isUnsigned 2
def ASN1intxisuint8 : Intx → Bool := isUnsigned 1
def ASN1intxisint64 : Intx → Option Bool := isSigned 8
def ASN1intxisint32 : Intx → Option Bool := isSigned 4
def ASN1intxisint16 : Intx → Option Bool := isSigned 2
def ASN1intxisint8 : Intx → Option Bool := isSigned 1

/-! ## Conversions -/

/-- `val->value[val->length - k]` -/
def fromEnd (val : Intx) (k : Nat) : Octet := val.getD (val.length - k) 0

/-- The last `k` octets, shifted and joined by `|`. -/
def joined (w : Nat) (val : Intx) : Nat → BitVec w
  | 0 => 0
  | k + 1 => joined w val k ||| (fromEnd val (k + 1)).setWidth w <<< (8 * k)

/-- The octets in front of the `k` octets of a negative value. -/
def signMask {w : Nat} (val : Intx) (k : Nat) (mask : BitVec w) : BitVec w :=
  if (fromEnd val k).toNat > 0x7f then mask else 0

def ASN1intx2uint64 (val : Intx) : BitVec 64 :=
  match val.length with
  | 1 => joined 64 val 1
  | 2 => joined 64 val 2
  | 3 => joined 64 val 3
  | 4 => joined 64 val 4
  | 5 => joined 64 val 5
  | 6 => joined 64 val 6
  | 7 => joined 64 val 7
  | _ => joined 64 val 8

def ASN1intx2int64 (val : Intx) : BitVec 64 :=
  match val.length with
  | 1 => (joined 8 val 1).signExtend 64
  | 2 => (joined 16 val 2).signExtend 64
  | 3 => (joined 32 val 3 ||| signMask val 3 0xff000000).signExtend 64
  | 4 => (joined 32 val 4).signExtend 64
  | 5 => joined 64 val 5 ||| signMask val 5 0xffffff0000000000
  | 6 => joined 64 val 6 ||| signMask val 6 0xffff000000000000
  | 7 => joined 64 val 7 ||| signMask val 7 0xff00000000000000
  | _ => joined 64 val 8

def ASN1intx2uint32 (val : Intx) : BitVec 32 :=
  match val.length with
  | 1 => joined 32 val 1
  | 2 => joined 32 val 2
  | 3 => joined 32 val 3
  | _ => joined 32 val 4

def ASN1intx2int32 (val : Intx) : BitVec 32 :=
  match val.length with
  | 1 => (joined 8 val 1).signExtend 32
  | 2 => (joined 16 val 2).signExtend 32
  | 3 => joined 32 val 3 ||| signMask val 3 0xff000000
  | _ => joined 32 val 4

def ASN1intx2uint16 (val : Intx) : BitVec 16 :=
  if val.length = 1 then joined 16 val 1 else joined 16 val 2

def ASN1intx2int16 (val : Intx) : BitVec 16 :=
  if val.length = 1 then (joined 8 val 1).signExtend 16 else joined 16 val 2

def ASN1intx2uint8 (val : Intx) : BitVec 8 := fromEnd val 1

def ASN1intx2int8 (val : Intx) : BitVec 8 := fromEnd val 1

/-! ## Logarithms -/

/-- The bits of an octet other than zero, as the chain of comparisons finds them. -/
def octetBits (x : Octet) : Nat :=
  if x.toNat > 0x7f then 8 else if x.toNat > 0x3f then 7 else if x.toNat > 0x1f then 6
  else if x.toNat > 0x0f then 5 else if x.toNat > 0x07 then 4 else if x.toNat > 0x03 then 3
  else if x.toNat > 0x01 then 2 else 1

def ASN1intx_log2 (arg : Intx) : Nat :=
  let v := ASN1intx_dec arg
  if (v.headD 0).toNat > 0x7f then 0
  else
    let i := leading 0 v
    if i ≥ v.length then 0 else 8 * (v.length - i - 1) + octetBits (v.getD i 0)

/-- The loop from bit `i - 1` down. -/
def log2Loop (arg : BitVec 32) : Nat → Nat
  | 0 => 0
  | i + 1 => if arg &&& (1 <<< i) ≠ 0 then i + 1 else log2Loop arg i

def ASN1uint32_log2 (arg : BitVec 32) : Nat := log2Loop (arg - 1) 32

def ASN1intx_log256 (arg : Intx) : Nat :=
  let v := ASN1intx_dec arg
  if (v.headD 0).toNat > 0x7f then 0 else v.length - leading 0 v

def ASN1uint32_log256 (arg : BitVec 32) : Nat :=
  if arg.toNat > 0x10000 then if arg.toNat > 0x1000000 then 4 else 3
  else if arg.toNat > 0x100 then 2
  else if arg.toNat > 1 then 1
  else 0

end SdkTools.Asn1
