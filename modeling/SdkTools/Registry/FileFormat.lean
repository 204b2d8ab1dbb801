import SdkTools.Types
import SdkTools.Registry.Keynodes

/-!
# Registry files

`regffmt.h`: the packed structures at the start of a registry file and of its
datablocks, read from a buffer of bytes.
-/

namespace SdkTools.Registry

set_option autoImplicit false

/-- Memory from the start of a buffer on. -/
abbrev Buffer := Nat → UCHAR

/-- A buffer that was read from a file, and what lies behind it. -/
def buffer (data : List UCHAR) (behind : Buffer) : Buffer := fun i => data.getD i (behind i)

def byteAt (m : Buffer) (offset : Nat) : Nat := (m offset).toNat

def wordAt (m : Buffer) (offset : Nat) : Nat := byteAt m offset + 256 * byteAt m (offset + 1)

def dwordAt (m : Buffer) (offset : Nat) : Nat :=
  wordAt m offset + 65536 * wordAt m (offset + 2)

def loword (dword : Nat) : Nat := dword % 65536
def hiword (dword : Nat) : Nat := dword / 65536

def sizeofDatablockHeader : Nat := 32
def keyRecordsPerDatablock : Nat := 255

def DH_SIGNATURE : Nat := 0x42444752

def rgIsValidDatablockHeader (m : Buffer) : Bool :=
  if dwordAt m 0 ≠ DH_SIGNATURE ∨ hiword (dwordAt m 4) ≠ 0 then false else true

/-- The position after `RgSeekFile`. A seek to -1 fails, but -1 is also what the
failing call returns, so it counts as done. -/
def rgSeekFile (position : Nat) (fileOffset : BitVec 32) : Option Nat :=
  if 0 ≤ fileOffset.toInt then some fileOffset.toNat
  else if fileOffset.toInt = -1 then some position
  else none

def rgReadFile (file : List UCHAR) (position byteCount : Nat) : Option (List UCHAR) :=
  if byteCount = 0 ∨ position + byteCount ≤ file.length then
    some ((file.drop position).take byteCount)
  else none

end SdkTools.Registry
