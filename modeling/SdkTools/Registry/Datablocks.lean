import SdkTools.Registry.FileFormat

/-!
# Locking the datablocks of a file

`regdblk.c` and `regfinfo.c`: opening a file, bringing a datablock into memory
and finding a key record in it. Every access to the bytes of a datablock in the
table-building loop and to the index table is noted down.
-/

namespace SdkTools.Registry

set_option autoImplicit false

/-- The index table of a datablock and the memory behind it. -/
abbrev KeyRecordTable := Nat → Nat

inductive Access where
  | read (offset byteCount : Nat)
  | store (index offset : Nat)
  | entry (index : Nat)

/-- The checks that `RgBuildKeyRecordTable` makes on a record. -/
def passes (m : Buffer) (offset bytesRemaining : Nat) : Bool :=
  let allocatedSize := dwordAt m offset
  let datablockAddress := dwordAt m (offset + 4)
  !(decide (allocatedSize = 0) || decide (allocatedSize > bytesRemaining) ||
    (decide (datablockAddress ≠ REG_NULL) &&
      decide (loword datablockAddress ≥ keyRecordsPerDatablock)))

/-- A record that has an index, so is not free. -/
def hasIndex (m : Buffer) (offset : Nat) : Bool := decide (dwordAt m (offset + 4) ≠ REG_NULL)

def indexOf (m : Buffer) (offset : Nat) : Nat := loword (dwordAt m (offset + 4))

def storeEntry (table : KeyRecordTable) (index offset : Nat) : KeyRecordTable :=
  fun i => if i = index then offset else table i

theorem passes_size {m : Buffer} {offset bytesRemaining : Nat}
    (h : passes m offset bytesRemaining = true) :
    dwordAt m offset ≠ 0 ∧ dwordAt m offset ≤ bytesRemaining := by
  simp only [passes, Bool.not_eq_true', Bool.or_eq_false_iff, decide_eq_false_iff_not] at h
  omega

/-- The loop of `RgBuildKeyRecordTable`. -/
def buildLoop (m : Buffer) (offset bytesRemaining : Nat) (table : KeyRecordTable) :
    List Access × Except ErrorCode KeyRecordTable :=
  if bytesRemaining = 0 then ([], .ok table)
  else if h : passes m offset bytesRemaining = true then
    let offset' := (offset + dwordAt m offset) % 2 ^ 32
    if hasIndex m offset = true then
      let rest := buildLoop m offset' (bytesRemaining - dwordAt m offset)
        (storeEntry table (indexOf m offset) offset)
      (.read offset 8 :: .store (indexOf m offset) offset :: rest.1, rest.2)
    else
      let rest := buildLoop m offset' (bytesRemaining - dwordAt m offset) table
      (.read offset 8 :: rest.1, rest.2)
  else ([.read offset 8], .error .badDb)
termination_by bytesRemaining
decreasing_by all_goals
  have hsize := passes_size h
  omega

/-- `ZeroMemory` on the table, which leaves what is behind it. -/
def zeroTable (behind : KeyRecordTable) : KeyRecordTable :=
  fun i => if i < keyRecordsPerDatablock then 0 else behind i

/-- What the loop starts from; the difference is a `UINT`. -/
def firstRemaining (blockSize : Nat) : Nat := (blockSize + 2 ^ 32 - sizeofDatablockHeader) % 2 ^ 32

def rgBuildKeyRecordTable (m : Buffer) (blockSize : Nat) (behind : KeyRecordTable) :
    List Access × Except ErrorCode KeyRecordTable :=
  buildLoop m sizeofDatablockHeader (firstRemaining blockSize) (zeroTable behind)

/-- The buffers of a datablock in memory. -/
structure Loaded where
  header : Buffer
  table : KeyRecordTable

/-- A `DATABLOCK_INFO`; the buffers are there if `DIF_PRESENT` is set. -/
structure DatablockInfo where
  blockSize : Nat
  freeBytes : Nat
  firstFreeIndex : Nat
  fileOffset : BitVec 32
  loaded : Option Loaded

/-- A `FILE_INFO`: its keynodes, and the first `BlockCount` of its datablock infos. -/
structure RegistryFile where
  fi : FileInfo
  datablocks : List DatablockInfo

/-- What the calls inside of `RgLockDatablock` come to, and the memory behind the
two buffers. -/
structure LockEnv where
  allocBuffers : Bool
  openFile : Bool
  behindHeader : Buffer
  behindTable : KeyRecordTable

/-- Bring the bytes of a datablock into memory. -/
def readDatablock (file : List UCHAR) (info : DatablockInfo) (env : LockEnv) :
    Except ErrorCode Buffer :=
  if env.allocBuffers = false then .error .outOfMemory
  else if env.openFile = false then .error .registryIoFailed
  else
    match rgSeekFile 0 info.fileOffset with
    | none => .error .registryIoFailed
    | some position =>
      match rgReadFile file position info.blockSize with
      | none => .error .registryIoFailed
      | some data =>
        let m := buffer data env.behindHeader
        if rgIsValidDatablockHeader m = false then .error .badDb else .ok m

def RegistryFile.setLoaded (rf : RegistryFile) (blockIndex : Nat) (info : DatablockInfo)
    (loaded : Option Loaded) : RegistryFile :=
  { rf with datablocks := rf.datablocks.set blockIndex { info with loaded } }

/-- The file info, the accesses and the buffers or the error of a call. -/
structure LockResult (α : Type) where
  rf : RegistryFile
  accesses : List Access
  result : Except ErrorCode α

/-- The end of a lock that has read the datablock and built its table. -/
def RegistryFile.finishLock (rf : RegistryFile) (blockIndex : Nat) (info : DatablockInfo)
    (m : Buffer) : List Access × Except ErrorCode KeyRecordTable → LockResult Loaded
  | (accesses, .error e) => ⟨rf, accesses, .error e⟩
  | (accesses, .ok table) =>
    ⟨rf.setLoaded blockIndex info (some ⟨m, table⟩), accesses, .ok ⟨m, table⟩⟩

def rgLockDatablock (file : List UCHAR) (rf : RegistryFile) (blockIndex : Nat) (env : LockEnv) :
    LockResult Loaded :=
  match rf.datablocks[blockIndex]? with
  | none => ⟨rf, [], .error .badDb⟩
  | some info =>
    match info.loaded with
    | some loaded => ⟨rf, [], .ok loaded⟩
    | none =>
      match readDatablock file info env with
      | .error e => ⟨rf, [], .error e⟩
      | .ok m =>
        rf.finishLock blockIndex info m (rgBuildKeyRecordTable m info.blockSize env.behindTable)

end SdkTools.Registry
