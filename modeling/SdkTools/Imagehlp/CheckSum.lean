import SdkTools.Lib.OnesComplement

/-!
# The checksum of an image file

`ChkSum` of `i386/chksum.asm`, `CheckSumMappedFile` of `checksum.c` and what `RelocateImage`
of `rebasei.c` does to the `CheckSum` field. Registers and words are numbers below `2 ^ 32`
and `2 ^ 16`.
-/

namespace SdkTools.Imagehlp

open Lib

set_option autoImplicit false

abbrev Memory := Nat → UInt8

def word (mem : Memory) (a : Nat) : Nat := (mem a).toNat + 256 * (mem (a + 1)).toNat

def dword (mem : Memory) (a : Nat) : Nat := word mem a + 65536 * word mem (a + 2)

/-! ## `ChkSum` -/

structure Regs where
  eax : Nat
  esi : Nat
  ecx : Nat

/-- `add eax,[esi]`, `adc eax,[esi + 4]` and so on for `n` dwords, and `adc eax,0`; `cf` is
the carry flag. -/
def adcChain (mem : Memory) : Nat → Nat → Nat → Nat → Nat
  | 0, _, eax, cf => (eax + cf) % 2 ^ 32
  | n + 1, esi, eax, cf =>
    let sum := eax + dword mem esi + cf
    adcChain mem n (esi + 4) (sum % 2 ^ 32) (sum / 2 ^ 32)

def block (mem : Memory) (size : Nat) (r : Regs) : Regs :=
  ⟨adcChain mem (size / 4) r.esi r.eax 0, r.esi + size, r.ecx - size⟩

/-- `cks50`: 128-byte blocks until no byte is left, at most `n`. -/
def cks50 (mem : Memory) : Nat → Regs → Regs
  | 0, r => r
  | n + 1, r =>
    let r := block mem 128 r
    if r.ecx = 0 then r else cks50 mem n r

/-- `cks10` to `cks40`: an initial block of each size whose bit is set in `ecx`. -/
def initialBlocks (mem : Memory) : List Nat → Regs → Regs
  | [], r => cks50 mem (r.ecx / 128) r
  | size :: sizes, r =>
    if r.ecx / size % 2 = 1 then
      let r := block mem size r
      if r.ecx = 0 then r else initialBlocks mem sizes r
    else initialBlocks mem sizes r

/-- `add eax,w` and `adc eax,0`. -/
def addWord (eax w : Nat) : Nat := ((eax + w) % 2 ^ 32 + (eax + w) / 2 ^ 32) % 2 ^ 32

/-- `cks70`: the last `n` words. -/
def cks70 (mem : Memory) : Nat → Nat → Nat → Nat
  | 0, _, eax => eax
  | n + 1, esi, eax => cks70 mem n (esi + 2) (addWord eax (word mem esi))

/-- `cks80`: the fold to 16 bits. -/
def cks80 (eax : Nat) : Nat :=
  let eax := eax % 65536 + eax / 65536
  (eax + eax / 65536) % 65536

def chkSum (mem : Memory) (cksum buf len : Nat) : Nat :=
  let ecx := len * 2 % 2 ^ 32
  if ecx = 0 then cks80 cksum
  else
    let r : Regs :=
      if buf / 2 % 2 = 1 then ⟨addWord cksum (word mem buf), buf + 2, ecx - 2⟩
      else ⟨cksum, buf, ecx⟩
    let edx := r.ecx % 8
    let r : Regs := ⟨r.eax, r.esi, r.ecx - edx⟩
    let r := if r.ecx = 0 then r else initialBlocks mem [8, 16, 32, 64] r
    cks80 (cks70 mem (edx / 2) r.esi r.eax)

/-! ## `CheckSumMappedFile` -/

/-- A file whose length is a `DWORD`. -/
@[ext] structure MappedFile where
  bytes : List UInt8
  length_lt : bytes.length < 2 ^ 32

namespace MappedFile

/-- A byte of the view; the rest of its last page is zero. -/
def byte (file : MappedFile) (i : Nat) : UInt8 := file.bytes.getD i 0

/-- The file mapped at an address. -/
def view (file : MappedFile) (baseAddress : Nat) : Memory := fun a => file.byte (a - baseAddress)

end MappedFile

/-- The address of `OptionalHeader.CheckSum`: it is at the same place in the 32-bit and the
64-bit header. -/
def checkSumField (mem : Memory) (ntHeaders : Nat) : Option Nat :=
  if word mem (ntHeaders + 24) = 0x10b then some (ntHeaders + 24 + 64)
  else if word mem (ntHeaders + 24) = 0x20b then some (ntHeaders + 24 + 64)
  else none

/-- `PartialSum -= (PartialSum < adjust); PartialSum -= adjust;` in a `USHORT`. -/
def subtractWord (partialSum adjust : Nat) : Nat :=
  let partialSum := (partialSum + 65536 - if partialSum < adjust then 1 else 0) % 65536
  (partialSum + 65536 - adjust) % 65536

/-- The last byte of a file of odd length; the sum is a `USHORT` before it is folded. -/
def addLastByte (file : MappedFile) (partialSum : Nat) : Nat :=
  if file.bytes.length % 2 = 1 then
    let partialSum := (partialSum + (file.byte (file.bytes.length - 1)).toNat) % 65536
    (partialSum / 65536 + partialSum % 65536) % 65536
  else partialSum

structure Sums where
  ntHeaders : Option Nat
  headerSum : Nat
  checkSum : Nat

/-- `CheckSumMappedFile`. `imageNtHeader` is `RtlpImageNtHeader`: the offset of the header in
the view, if there is one. -/
def checkSumMappedFile (imageNtHeader : MappedFile → Option Nat) (baseAddress : Nat)
    (file : MappedFile) : Sums :=
  let mem := file.view baseAddress
  let partialSum := chkSum mem 0 baseAddress (file.bytes.length / 2)
  let final (partialSum : Nat) : Nat :=
    (addLastByte file partialSum + file.bytes.length) % 2 ^ 32
  match imageNtHeader file with
  | none => ⟨none, 0, final partialSum⟩
  | some ntHeaders =>
    if ntHeaders = 0 then ⟨some 0, 0, final partialSum⟩
    else
      match checkSumField mem (baseAddress + ntHeaders) with
      | none => ⟨none, 0, 0⟩
      | some field =>
        let partialSum := subtractWord partialSum (word mem field)
        let partialSum := subtractWord partialSum (word mem (field + 2))
        ⟨some ntHeaders, dword mem field, final partialSum⟩

/-- A `DWORD` written to the view; what lies beyond the end does not reach the file. -/
def MappedFile.store (file : MappedFile) (offset value : Nat) : MappedFile where
  bytes :=
    (((file.bytes.set offset (UInt8.ofNat value)).set (offset + 1) (UInt8.ofNat (value / 2 ^ 8))).set
      (offset + 2) (UInt8.ofNat (value / 2 ^ 16))).set (offset + 3) (UInt8.ofNat (value / 2 ^ 24))
  length_lt := by
    simp only [List.length_set]
    exact file.length_lt

/-- The end of `RelocateImage`: the field is cleared, the sum computed and stored. -/
def relocateCheckSum (imageNtHeader : MappedFile → Option Nat) (baseAddress : Nat)
    (file : MappedFile) (ntHeaders : Nat) : MappedFile :=
  let cleared := file.store (ntHeaders + 88) 0
  cleared.store (ntHeaders + 88) (checkSumMappedFile imageNtHeader baseAddress cleared).checkSum

/-! ## What the checksum is -/

/-- The 16-bit words of a file, with an odd last byte as a word. -/
def wordsOf : List UInt8 → List Nat
  | [] => []
  | [b] => [b.toNat]
  | b :: c :: bytes => (b.toNat + 256 * c.toNat) :: wordsOf bytes

/-- The file length plus the ones' complement sum of the words, without the field at
`offset`. -/
def imageCheckSum (file : MappedFile) (offset : Nat) : Nat :=
  (file.bytes.length + onesSum 65536 (wordsOf (file.store offset 0).bytes)) % 2 ^ 32

/-- What is documented of `RtlpImageNtHeader`: there is a header where the DOS signature
stands, `e_lfanew` gives its offset and the NT signature stands there. Nothing else is
read. -/
structure NtHeaderFinder (imageNtHeader : MappedFile → Option Nat) : Prop where
  dos : ∀ file ntHeaders, imageNtHeader file = some ntHeaders →
    file.byte 0 = 0x4d ∧ file.byte 1 = 0x5a
  reads : ∀ file file' ntHeaders, imageNtHeader file = some ntHeaders →
    (∀ i, i < 64 ∨ ntHeaders ≤ i ∧ i < ntHeaders + 4 → file'.byte i = file.byte i) →
    imageNtHeader file' = some ntHeaders

/-- `CheckSumMappedFile` finds a PE32 or PE32+ header. -/
structure HasHeader (imageNtHeader : MappedFile → Option Nat) (file : MappedFile)
    (ntHeaders : Nat) : Prop where
  found : imageNtHeader file = some ntHeaders
  ne_zero : ntHeaders ≠ 0
  magic : (file.byte (ntHeaders + 24) = 0x0b) ∧
    (file.byte (ntHeaders + 25) = 0x01 ∨ file.byte (ntHeaders + 25) = 0x02)

end SdkTools.Imagehlp
