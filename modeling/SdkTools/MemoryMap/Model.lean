import Mathlib
import SdkTools.Types

/-!
# Mapped memory regions

The region list of `mmap.cpp`. A buffer pointer is modelled by the bytes that
can be read through it, so advancing the pointer drops bytes from the front.
-/

namespace SdkTools.MemoryMap

set_option autoImplicit false

/-- `HRESULT_FROM_NT(STATUS_CONFLICTING_ADDRESSES)`. -/
def HR_REGION_CONFLICT : HRESULT := hresultFromNt 0xC0000018

structure MemoryMapEntry where
  baseOfRegion : ULONG64
  sizeOfRegion : ULONG
  region : List UCHAR
  userData : Nat
  allowOverlap : Bool
deriving DecidableEq

structure MappedMemoryMap where
  list : List MemoryMapEntry
  regionCount : ULONG
deriving DecidableEq

def MappedMemoryMap.empty : MappedMemoryMap := ⟨[], 0⟩

/-- What the host system decides during one call. The base address changes from
pass to pass of the loops below, so indexing by it is fully general. -/
structure Env where
  /-- does the allocation for a region at this base succeed -/
  malloc : ULONG64 → Bool
  /-- the exception code of an in-page error raised while reading mapped data -/
  pageError : ULONG64 → Option (BitVec 32)

/-- The number of entries up to and including the preceding region; `0` stands
for the null pointer. -/
def findPreceedingRegion (base : ULONG64) : List MemoryMapEntry → Nat
  | [] => 0
  | e :: rest => if e.baseOfRegion ≥ base then 0 else findPreceedingRegion base rest + 1

def addMapEntry (m : MappedMemoryMap) (entry : MemoryMapEntry) : MappedMemoryMap :=
  let k := findPreceedingRegion entry.baseOfRegion m.list
  { list := m.list.take k ++ entry :: m.list.drop k
    regionCount := m.regionCount + 1 }

/-- The scan for the first overlapping region. An entry that may overlap ends
the scan without being reported. -/
def findOverlap (base endOfRegion : ULONG64) (allowOverlap : Bool) :
    List MemoryMapEntry → Option MemoryMapEntry
  | [] => none
  | e :: rest =>
    if endOfRegion > e.baseOfRegion ∧ e.baseOfRegion ≥ base then
      if allowOverlap || e.allowOverlap then none else some e
    else findOverlap base endOfRegion allowOverlap rest

/-- The arguments that `AddRegion` trims as it goes. -/
structure Request where
  base : ULONG64
  size : ULONG
  buffer : List UCHAR

def Request.advance (r : Request) (n : ULONG) : Request :=
  { base := r.base + toU64 n, size := r.size - n, buffer := r.buffer.drop n.toNat }

def Request.entry (r : Request) (size : ULONG) (userData : Nat) (allowOverlap : Bool) :
    MemoryMapEntry :=
  { baseOfRegion := r.base, sizeOfRegion := size, region := r.buffer, userData, allowOverlap }

def overlapSize (e : MemoryMapEntry) (r : Request) : ULONG :=
  if r.size > e.sizeOfRegion then e.sizeOfRegion else r.size

/-- The comparison with an overlapped region: an error, or the trimmed request. -/
def compareOverlap (env : Env) (e : MemoryMapEntry) (r : Request) : HRESULT ⊕ Request :=
  let size := overlapSize e r
  match env.pageError r.base with
  | some code => .inl (hresultFromNt code)
  | none =>
    if r.buffer.take size.toNat = e.region.take size.toNat then .inr (r.advance size)
    else .inl HR_REGION_CONFLICT

/-- The body of the `while` loop; `none` when `fuel` runs out. -/
def addRegionLoop (env : Env) (userData : Nat) (allowOverlap : Bool) :
    Nat → MappedMemoryMap → Request → Option (HRESULT × MappedMemoryMap)
  | 0, _, _ => none
  | fuel + 1, m, r =>
    if r.size = 0 then some (S_OK, m)
    else
      match findOverlap r.base (r.base + toU64 r.size) allowOverlap m.list with
      | none =>
        if env.malloc r.base then
          some (S_OK, addMapEntry m (r.entry r.size userData allowOverlap))
        else some (E_OUTOFMEMORY, m)
      | some e =>
        if r.base < e.baseOfRegion then
          -- The part before the overlapped region becomes an entry of its own.
          let size := toU32 (e.baseOfRegion - r.base)
          if env.malloc r.base then
            let m' := addMapEntry m (r.entry size userData allowOverlap)
            if size = r.size then some (S_OK, m')
            else
              match compareOverlap env e (r.advance size) with
              | .inl code => some (code, m')
              | .inr r' => addRegionLoop env userData allowOverlap fuel m' r'
          else some (E_OUTOFMEMORY, m)
        else
          match compareOverlap env e r with
          | .inl code => some (code, m)
          | .inr r' => addRegionLoop env userData allowOverlap fuel m r'

/-- `IsBadReadPtr` fails exactly when fewer bytes than the size can be read. -/
def addRegion (env : Env) (m : MappedMemoryMap) (r : Request) (userData : Nat)
    (allowOverlap : Bool) : Option (HRESULT × MappedMemoryMap) :=
  if r.size = 0 then some (S_OK, m)
  else if r.buffer.length < r.size.toNat then some (E_INVALIDARG, m)
  else addRegionLoop env userData allowOverlap (r.size.toNat + 1) m r

/-- The test `BaseOfRegion <= Addr && Addr < BaseOfRegion + SizeOfRegion`. -/
def MemoryMapEntry.contains (e : MemoryMapEntry) (addr : ULONG64) : Bool :=
  e.baseOfRegion ≤ addr ∧ addr < e.baseOfRegion + toU64 e.sizeOfRegion

/-- The entry found so far travels with the entries that follow it. -/
def findContainingRegionLoop (addr : ULONG64) :
    List MemoryMapEntry → Option (MemoryMapEntry × List MemoryMapEntry) →
      Option (MemoryMapEntry × List MemoryMapEntry)
  | [], found => found
  | e :: rest, found =>
    if e.contains addr then findContainingRegionLoop addr rest (some (e, rest))
    else
      match found with
      | some (r, _) =>
        if addr ≥ r.baseOfRegion + toU64 r.sizeOfRegion then found
        else findContainingRegionLoop addr rest found
      | none => findContainingRegionLoop addr rest none

def findContainingRegion (m : MappedMemoryMap) (addr : ULONG64) :
    Option (MemoryMapEntry × List MemoryMapEntry) :=
  findContainingRegionLoop addr m.list none

/-- The bytes of the containing region that no later region may hide. -/
def availSize (e : MemoryMapEntry) (baseToRead : ULONG64) : List MemoryMapEntry → ULONG
  | [] => e.sizeOfRegion
  | next :: rest =>
    if next.baseOfRegion > baseToRead then
      let diff := next.baseOfRegion - e.baseOfRegion
      if diff < toU64 e.sizeOfRegion then toU32 diff else e.sizeOfRegion
    else availSize e baseToRead rest

def bytesToReadFromRegion (e : MemoryMapEntry) (rest : List MemoryMapEntry)
    (baseToRead : ULONG64) (sizeToRead : ULONG) : ULONG :=
  let avail := availSize e baseToRead rest
  if baseToRead + toU64 sizeToRead > e.baseOfRegion + toU64 avail then
    toU32 (e.baseOfRegion - baseToRead) + avail
  else sizeToRead

/-- The `do`-`while` loop of `ReadMemory`: the returned flag and the bytes copied,
whose number is `*BytesRead`. -/
def readMemoryLoop (env : Env) (m : MappedMemoryMap) :
    Nat → ULONG64 → ULONG → List UCHAR → Option (Bool × List UCHAR)
  | 0, _, _, _ => none
  | fuel + 1, baseToRead, sizeToRead, done =>
    match findContainingRegion m baseToRead with
    | none => some (!done.isEmpty, done)
    | some (e, rest) =>
      let n := bytesToReadFromRegion e rest baseToRead sizeToRead
      let offset := (baseToRead - e.baseOfRegion).toNat
      match env.pageError baseToRead with
      | some _ => some (false, done)
      | none =>
        let done' := done ++ (e.region.drop offset).take n.toNat
        if sizeToRead - n = 0 then some (true, done')
        else readMemoryLoop env m fuel (baseToRead + toU64 n) (sizeToRead - n) done'

def readMemory (env : Env) (m : MappedMemoryMap) (baseOfRange : ULONG64) (sizeOfRange : ULONG) :
    Option (Bool × List UCHAR) :=
  readMemoryLoop env m (sizeOfRange.toNat + 1) baseOfRange sizeOfRange []

/-- Only an entry with exactly this base and size is removed. -/
def removeRegion (m : MappedMemoryMap) (base : ULONG64) (size : ULONG) : Bool × MappedMemoryMap :=
  let k := findPreceedingRegion base m.list
  match m.list.drop k with
  | [] => (false, m)
  | e :: rest =>
    if e.baseOfRegion ≠ base ∨ e.sizeOfRegion ≠ size then (false, m)
    else (true, { list := m.list.take k ++ rest, regionCount := m.regionCount - 1 })

end SdkTools.MemoryMap
