import SdkTools.Kd.RoundTrip
import Mathlib.Data.List.Induction

/-!
# Breakpoint arrays for 32-bit targets

`WriteDataPacket` for `DbgKdWriteBreakPointExApi`: the request is converted into `m32`, and
the array of breakpoints into words of 32 bits. The words are taken from the memory at
`m32`, so that the array itself does not matter.
-/

namespace SdkTools.Kd

set_option autoImplicit false

def DbgKdWriteBreakPointExApi : BitVec 32 := 0x3147

/-- The fields of `DBGKD_MANIPULATE_STATE64` that this request uses. -/
structure BreakPointExRequest where
  ProcessorLevel : BitVec 16
  Processor : BitVec 16
  ReturnStatus : BitVec 32
  BreakPointCount : BitVec 32
  ContinueStatus : BitVec 32

/-- The fields before the union. -/
def BreakPointExRequest.head (r : BreakPointExRequest) : List Byte :=
  bytesOf 4 DbgKdWriteBreakPointExApi.toNat ++ bytesOf 2 r.ProcessorLevel.toNat ++
    bytesOf 2 r.Processor.toNat ++ bytesOf 4 r.ReturnStatus.toNat

/-- Four bytes of memory. -/
def dwordAt (memory : Nat → Byte) (k : Nat) : BitVec 32 :=
  BitVec.ofNat 32 (valueOf [memory k, memory (k + 1), memory (k + 2), memory (k + 3)])

variable (P : Protocol)

end SdkTools.Kd
