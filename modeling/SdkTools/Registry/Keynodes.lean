import Mathlib

/-!
# The keynode table

`regknode.c`: the table of keynodes of a hive, in the Win95 format (28-byte
keynodes behind a 32-byte header) or in the compact one (16-byte keynodes), and
the list of its free records. Sizes and offsets are `DWORD`s.
-/

namespace SdkTools.Registry

set_option autoImplicit false

inductive ErrorCode where
  | badDb
  | outOfMemory
  | registryIoFailed
  deriving DecidableEq

def REG_NULL : Nat := 0xFFFFFFFF

def pageSize : Nat := 4096
def sizeofKeynodeHeader : Nat := 32
def sizeofW95Keynode : Nat := 28
def sizeofKeynode : Nat := 16
def keynodesPerBlock : Nat := 1024
def w95KeynodesPerPage : Nat := pageSize / sizeofW95Keynode
def keynodeBlockInfoSlackAlloc : Nat := 4

def isNullKeynodeIndex (kni : Nat) : Bool := decide (kni ≥ 0x00FFFFFF)

/-- `KN_BLOCK_NUMBER` -/
def blockNumber (index : Nat) : Nat := index / keynodesPerBlock

/-- `KN_INDEX_IN_BLOCK` -/
def indexInBlock (index : Nat) : Nat := index % keynodesPerBlock

def rgOffsetToIndex (w95KeynodeOffset : Nat) : Nat :=
  if w95KeynodeOffset = REG_NULL then w95KeynodeOffset else w95KeynodeOffset / sizeofW95Keynode

def rgIndexToOffset (keynodeIndex : Nat) : Nat :=
  if isNullKeynodeIndex keynodeIndex then REG_NULL
  else if keynodeIndex ≥ 2 * w95KeynodesPerPage then
    let unroundedOff := keynodeIndex * sizeofW95Keynode + sizeofW95Keynode - 1
    let roundPage := unroundedOff % pageSize / sizeofW95Keynode * sizeofW95Keynode
    (unroundedOff - unroundedOff % pageSize) + roundPage
  else
    -- index 0 wraps around
    ((keynodeIndex + 2 ^ 32 - 1) % 2 ^ 32 * sizeofW95Keynode + sizeofKeynodeHeader) % 2 ^ 32

/-- `ROUND_UP` on `DWORD`s. -/
def roundUp (i baseSize : Nat) : Nat := (i + baseSize - 1) % 2 ^ 32 / baseSize * baseSize

/-- The fields of a `KEYNODE` that the free list uses; `freeRecordSize` shares
its memory with fields of keynodes in use. -/
structure Keynode where
  nextIndex : BitVec 24
  inUse : Bool
  freeRecordSize : Nat

/-- The fields of a `FILE_INFO` that concern its keynodes. `keynodes` is what
the blocks hold, be they in memory or in the file. -/
structure FileInfo where
  version20 : Bool
  keynodeBlockCount : Nat
  keynodeBlockInfoAllocCount : Nat
  curTotalKnSize : Nat
  fileKnSize : Nat
  rootIndex : Nat
  firstFreeIndex : Nat
  keynodes : Nat → Keynode

def FileInfo.setKeynode (fi : FileInfo) (index : Nat) (k : Keynode) : FileInfo :=
  { fi with keynodes := fun i => if i = index then k else fi.keynodes i }

/-- `SIZEOF_FILE_KEYNODE` -/
def sizeofFileKeynode (fi : FileInfo) : Nat :=
  if fi.version20 then sizeofKeynode else sizeofW95Keynode

/-- `SIZEOF_KEYNODE_BLOCK` -/
def sizeofKeynodeBlock (fi : FileInfo) : Nat := keynodesPerBlock * sizeofFileKeynode fi

/-- The block and the place in it that `RgLockKeynode` points to. `failure` is
how bringing the block into memory fails, if it does. -/
def rgLockKeynode (fi : FileInfo) (keynodeIndex : Nat) (failure : Option ErrorCode) :
    Except ErrorCode (Nat × Nat) :=
  let keynodeBlockIndex := blockNumber keynodeIndex
  if keynodeBlockIndex > fi.keynodeBlockCount then .error .badDb
  else
    match failure with
    | some e => .error e
    | none => .ok (keynodeBlockIndex, indexInBlock keynodeIndex)

/-- What the calls inside of `RgAllocKeynode` come to. -/
structure AllocEnv where
  reAlloc : Bool
  lockFree : Option ErrorCode
  lockNext : Option ErrorCode

structure Extension where
  freeKeynodeIndex : Nat
  freeRecordSize : Nat
  extraPadding : Nat

/-- The free record that extending the table gives. -/
def extension (fi : FileInfo) : Extension :=
  if fi.version20 then
    ⟨roundUp fi.curTotalKnSize pageSize / sizeofKeynode, pageSize, 0⟩
  else if fi.curTotalKnSize = sizeofKeynodeHeader then
    -- a new file
    ⟨rgOffsetToIndex sizeofKeynodeHeader, pageSize - sizeofKeynodeHeader * 2, 0⟩
  else
    let freeKeynodeOffset := roundUp fi.curTotalKnSize pageSize
    let extraPadding := freeKeynodeOffset - fi.curTotalKnSize
    if extraPadding > sizeofW95Keynode ∨ freeKeynodeOffset = pageSize then
      -- a table with a non-integral number of pages
      ⟨rgOffsetToIndex fi.curTotalKnSize, pageSize + extraPadding, 0⟩
    else ⟨rgOffsetToIndex freeKeynodeOffset, pageSize, extraPadding⟩

/-- The header fields and the block count after an extension. -/
def extend (fi : FileInfo) : FileInfo :=
  let x := extension fi
  let block := blockNumber x.freeKeynodeIndex
  { fi with
    keynodeBlockInfoAllocCount :=
      if block ≥ fi.keynodeBlockInfoAllocCount then block + keynodeBlockInfoSlackAlloc
      else fi.keynodeBlockInfoAllocCount
    keynodeBlockCount := if block ≥ fi.keynodeBlockCount then block + 1 else fi.keynodeBlockCount
    curTotalKnSize := (fi.curTotalKnSize + (x.freeRecordSize + x.extraPadding)) % 2 ^ 32
    firstFreeIndex := x.freeKeynodeIndex }

/-- Take the first free keynode, splitting its record if it is long enough. -/
def takeFree (fi : FileInfo) (freeKeynodeIndex : Nat) (env : AllocEnv) : FileInfo :=
  let k := fi.keynodes freeKeynodeIndex
  let keynodeSize := sizeofFileKeynode fi
  let split := decide (k.freeRecordSize ≥ keynodeSize * 2) &&
    (rgLockKeynode fi (freeKeynodeIndex + 1) env.lockNext).isOk
  let fi :=
    if split then
      { fi.setKeynode (freeKeynodeIndex + 1)
          { nextIndex := k.nextIndex, inUse := false
            freeRecordSize := k.freeRecordSize - keynodeSize } with
        firstFreeIndex := freeKeynodeIndex + 1 }
    else { fi with firstFreeIndex := k.nextIndex.toNat }
  fi.setKeynode freeKeynodeIndex { k with inUse := true }

def rgAllocKeynode (fi : FileInfo) (env : AllocEnv) : FileInfo × Except ErrorCode Nat :=
  if isNullKeynodeIndex fi.firstFreeIndex then
    let x := extension fi
    if blockNumber x.freeKeynodeIndex ≥ fi.keynodeBlockInfoAllocCount ∧ env.reAlloc = false then
      (fi, .error .outOfMemory)
    else
      let fi := extend fi
      match rgLockKeynode fi x.freeKeynodeIndex env.lockFree with
      | .error e => (fi, .error e)
      | .ok _ =>
        let fi := fi.setKeynode x.freeKeynodeIndex
          { nextIndex := BitVec.ofNat 24 REG_NULL, inUse := false
            freeRecordSize := x.freeRecordSize }
        (takeFree fi x.freeKeynodeIndex env, .ok x.freeKeynodeIndex)
  else
    match rgLockKeynode fi fi.firstFreeIndex env.lockFree with
    | .error e => (fi, .error e)
    | .ok _ => (takeFree fi fi.firstFreeIndex env, .ok fi.firstFreeIndex)

def rgFreeKeynode (fi : FileInfo) (keynodeIndex : Nat) (failure : Option ErrorCode) :
    FileInfo × Option ErrorCode :=
  match rgLockKeynode fi keynodeIndex failure with
  | .error e => (fi, some e)
  | .ok _ =>
    ({ fi.setKeynode keynodeIndex
        { nextIndex := BitVec.ofNat 24 fi.firstFreeIndex, inUse := false
          freeRecordSize := sizeofFileKeynode fi } with
      firstFreeIndex := keynodeIndex }, none)

/-- `RgInitKeynodeInfo` on the headers of a file; the headers of a new file are empty. -/
def rgInitKeynodeInfo (version20 : Bool) (fileKnSize rootIndex firstFreeIndex : Nat)
    (keynodes : Nat → Keynode) : FileInfo :=
  let blockSize := keynodesPerBlock * if version20 then sizeofKeynode else sizeofW95Keynode
  let blockCount := (fileKnSize + blockSize - 1) % 2 ^ 32 / blockSize
  { version20
    keynodeBlockCount := blockCount
    keynodeBlockInfoAllocCount := blockCount + keynodeBlockInfoSlackAlloc
    curTotalKnSize := fileKnSize
    fileKnSize
    rootIndex := if version20 then rootIndex else rgOffsetToIndex rootIndex
    firstFreeIndex := if version20 then firstFreeIndex else rgOffsetToIndex firstFreeIndex
    keynodes }

/-- The keynode table that `RgCreateFileInfoNew` starts from; the memory of the
blocks to come has any contents. -/
def newKeynodeInfo (version20 : Bool) (keynodes : Nat → Keynode) : FileInfo :=
  let fi := rgInitKeynodeInfo version20 0 REG_NULL REG_NULL keynodes
  { fi with curTotalKnSize := if version20 then 0 else sizeofKeynodeHeader }

/-- `RgCreateFileInfoNew` allocates the keynode of the root. -/
def rgCreateFileInfoNew (version20 : Bool) (keynodes : Nat → Keynode) (env : AllocEnv) :
    Except ErrorCode FileInfo :=
  match rgAllocKeynode (newKeynodeInfo version20 keynodes) env with
  | (_, .error e) => .error e
  | (fi, .ok index) => .ok { fi with rootIndex := index, fileKnSize := fi.curTotalKnSize }

end SdkTools.Registry
