import Mathlib

/-!
# The walk over the relocation directory

`RvaToVa` and the loop of `RelocateImage` of `rebasei.c`, for an image whose relocations
have not been stripped. Positions are offsets in the directory. The routine that applies
the fixups may change its bytes, so they are given for each number of blocks that have
been processed.
-/

namespace SdkTools.Imagehlp.Relocation

set_option autoImplicit false

abbrev ULONG := BitVec 32

structure SECTION where
  VirtualAddress : ULONG
  SizeOfRawData : ULONG
  PointerToRawData : ULONG

/-- A mapped image; the section that was found last is one of its sections. -/
structure LOADED_IMAGE where
  Sections : List SECTION
  LastRvaSection : SECTION
  MappedAddress : BitVec 64
  last_mem : LastRvaSection ∈ Sections
  mapped : 0 < MappedAddress.toNat ∧ MappedAddress.toNat + 2 ^ 32 ≤ 2 ^ 64

def SECTION.contains (Section : SECTION) (Rva : ULONG) : Bool :=
  Section.VirtualAddress ≤ Rva ∧ Rva < Section.VirtualAddress + Section.SizeOfRawData

def LOADED_IMAGE.va (Image : LOADED_IMAGE) (Section : SECTION) (Rva : ULONG) : BitVec 64 :=
  (Rva - Section.VirtualAddress + Section.PointerToRawData).setWidth 64 + Image.MappedAddress

/-- The directory; `byte k i` is its byte at `i` after `k` blocks. -/
structure Directory where
  TotalCountBytes : ULONG
  byte : Nat → Nat → BitVec 8

inductive Fault where
  /-- A block header is read that is not in the directory. -/
  | header (NextBlock : Nat)
  /-- Offsets are handed out that are not in the directory. -/
  | offsets (NextOffset : Nat) (SizeOfBlock : ULONG)
  | fuel
deriving DecidableEq

section

variable (d : Directory)

def Directory.dword (k i : Nat) : ULONG :=
  d.byte k (i + 3) ++ d.byte k (i + 2) ++ d.byte k (i + 1) ++ d.byte k i

structure Walk where
  blocks : Nat
  NextBlock : Nat
  TotalCountBytes : ULONG
  Image : LOADED_IMAGE

/-- What is returned, and whether the signature of the header has been set to -1. -/
structure Result where
  rc : Bool
  invalid : Bool
deriving DecidableEq

end

/-! ### Directories -/

section

variable (d : Directory)

def Directory.size (k i : Nat) : Nat := (d.dword k (i + 4)).toNat

/-- From `i` on, the directory consists of blocks of at least 8 bytes. -/
inductive Splits : Nat → Nat → Prop where
  | done {k : Nat} : Splits k d.TotalCountBytes.toNat
  | block {k i : Nat} (hsize : 8 ≤ d.size k i) (hin : i + d.size k i ≤ d.TotalCountBytes.toNat)
      (hnext : Splits (k + 1) (i + d.size k i)) : Splits k i

inductive Ending where
  /-- all bytes have been counted -/
  | counted
  | stray
deriving DecidableEq

end

/-! ### Addresses -/

end SdkTools.Imagehlp.Relocation
