import Mathlib.Data.List.Basic

/-!
# Windows base types

The fixed-width integers of the source are bit vectors of the same width, so
that sums and differences wrap where they wrap in C.
-/

namespace SdkTools

set_option autoImplicit false

abbrev CHAR := BitVec 8
abbrev UCHAR := BitVec 8
abbrev USHORT := BitVec 16
abbrev ULONG := BitVec 32
abbrev ULONG64 := BitVec 64
abbrev LONG64 := BitVec 64
abbrev HRESULT := BitVec 32

def chr (c : Char) : CHAR := BitVec.ofNat 8 c.toNat

/-- There is a number of 32 bits; the power is that of `BitVec`, whatever is imported. -/
instance ULONG.instNeZero : type_of% (@Nat.instNeZeroHPow 2 32 ⟨Nat.succ_ne_zero 1⟩) :=
  @Nat.instNeZeroHPow 2 32 ⟨Nat.succ_ne_zero 1⟩

/-- The implicit conversion of a `ULONG` to `ULONG64`. -/
abbrev toU64 (x : ULONG) : ULONG64 := x.setWidth 64

/-- The cast `(ULONG)x`, which drops the upper half. -/
abbrev toU32 (x : ULONG64) : ULONG := x.setWidth 32

def S_OK : HRESULT := 0
def E_OUTOFMEMORY : HRESULT := 0x8007000E
def E_INVALIDARG : HRESULT := 0x80070057

/-- `HRESULT_FROM_NT`: an NT status with the facility bit of `winerror.h` set. -/
def hresultFromNt (status : BitVec 32) : HRESULT := status ||| 0x10000000

theorem hresultFromNt_ne_ok (status : BitVec 32) : hresultFromNt status ≠ S_OK := by
  intro h
  have hbit := congrArg (fun x : BitVec 32 => x.getLsbD 28) h
  simp [hresultFromNt, S_OK] at hbit

theorem toU64_toNat (x : ULONG) : (toU64 x).toNat = x.toNat := by
  simp only [toU64, BitVec.toNat_setWidth]
  omega

end SdkTools
