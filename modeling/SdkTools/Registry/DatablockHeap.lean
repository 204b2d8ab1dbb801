import SdkTools.Registry.Datablocks

/-!
# Records of a datablock in memory

`regdblk.c`: allocating, extending, moving and freeing key records in a
datablock, growing the block and compacting it. Offsets count from the header.
-/

namespace SdkTools.Registry

set_option autoImplicit false

def maximumDatablockSize : Nat := 60 * 1024

/-- `sizeof(KEY_RECORD) + sizeof(VALUE_RECORD)` -/
def minimumFreeRecordLength : Nat := 21 + 13

def datablocksPerFile : Nat := 0xFFFE

def setDword (m : Buffer) (offset v : Nat) : Buffer := fun i =>
  if i = offset then BitVec.ofNat 8 v
  else if i = offset + 1 then BitVec.ofNat 8 (v / 256)
  else if i = offset + 2 then BitVec.ofNat 8 (v / 65536)
  else if i = offset + 3 then BitVec.ofNat 8 (v / 16777216)
  else m i

def moveMemory (m : Buffer) (destination source byteCount : Nat) : Buffer := fun i =>
  if destination ≤ i ∧ i < destination + byteCount then m (source + (i - destination)) else m i

def makelong (low high : Nat) : Nat := low + 65536 * high

/-- `RgAlignBlockSize` -/
def rgAlignBlockSize (size : Nat) : Nat := roundUp size 4096

/-- A datablock in memory. `firstFreeOffset` and `maxAllocatedIndex` are fields of
its header, `blockSize`, `freeBytes` and `firstFreeIndex` those of its info. -/
structure Datablock where
  mem : Buffer
  firstFreeOffset : Nat
  maxAllocatedIndex : Nat
  table : KeyRecordTable
  blockSize : Nat
  freeBytes : Nat
  firstFreeIndex : Nat

/-- What `RgBuildKeyRecordTable` leaves in the table, whether it succeeds or not. -/
def storeAll (table : KeyRecordTable) : List Access → KeyRecordTable
  | [] => table
  | .store index offset :: rest => storeAll (storeEntry table index offset) rest
  | _ :: rest => storeAll table rest

def Datablock.rebuildTable (db : Datablock) : Datablock :=
  { db with
    table := storeAll (zeroTable db.table)
      (rgBuildKeyRecordTable db.mem db.blockSize db.table).1 }

/-- The next free record at or after an offset, or the end of the block. -/
def nextFree (m : Buffer) (blockSize : Nat) : Nat → Nat → Nat
  | 0, offset => offset
  | fuel + 1, offset =>
    if offset ≥ blockSize ∨ hasIndex m offset = false then offset
    else nextFree m blockSize fuel (offset + dwordAt m offset)

/-- The next key record at or after an offset, or the end of the block. -/
def nextUsed (m : Buffer) (blockSize : Nat) : Nat → Nat → Nat
  | 0, offset => offset
  | fuel + 1, offset =>
    if offset ≥ blockSize ∨ hasIndex m offset = true then offset
    else nextUsed m blockSize fuel (offset + dwordAt m offset)

/-- The loop of `RgCompactDatablock`; `fuel` bounds the number of records. -/
def compactLoop (blockSize : Nat) :
    Nat → Buffer → Option Nat → Option Nat → Nat → Buffer × Option Nat
  | 0, m, _, destination, _ => (m, destination)
  | fuel + 1, m, source, destination, offset =>
    if offset < blockSize then
      let free := nextFree m blockSize blockSize offset
      let pushed :=
        match source with
        | some source =>
          (moveMemory m (destination.getD 0) source (free - source),
            destination.map (· + (free - source)))
        | none => (m, destination)
      let destination := some (pushed.2.getD free)
      let used := nextUsed pushed.1 blockSize blockSize free
      let source := if used < blockSize then some used else source
      compactLoop blockSize fuel pushed.1 source destination used
    else (m, destination)

def setFree (m : Buffer) (offset allocatedSize nextFreeOffset : Nat) : Buffer :=
  setDword (setDword (setDword m offset allocatedSize) (offset + 4) REG_NULL) (offset + 8)
    nextFreeOffset

def rgCompactDatablock (db : Datablock) : Datablock :=
  if db.firstFreeOffset = REG_NULL then db
  else if db.firstFreeOffset + dwordAt db.mem db.firstFreeOffset ≥ db.blockSize ∧
      dwordAt db.mem (db.firstFreeOffset + 8) = REG_NULL then db
  else
    let pushed := compactLoop db.blockSize db.blockSize db.mem none none sizeofDatablockHeader
    let destination := pushed.2.getD 0
    Datablock.rebuildTable
      { db with
        mem := setFree pushed.1 destination db.freeBytes REG_NULL
        firstFreeOffset := destination }

/-- The end of `RgExtendDatablock`: the new bytes join the free record at the end. -/
def Datablock.growTo (db : Datablock) (newBlockSize : Nat) : Datablock :=
  let freeBytes := db.freeBytes + (newBlockSize - db.blockSize)
  if db.firstFreeOffset = REG_NULL then
    let m := setDword (setDword db.mem (db.blockSize + 4) REG_NULL) (db.blockSize + 8) REG_NULL
    { db with
      mem := setDword m db.blockSize freeBytes
      firstFreeOffset := db.blockSize
      freeBytes
      blockSize := newBlockSize }
  else
    { db with
      mem := setDword db.mem db.firstFreeOffset freeBytes
      freeBytes
      blockSize := newBlockSize }

/-- `RgExtendDatablock`; `reAlloc` is what lies behind the block in its new
memory, if there is any. -/
def rgExtendDatablock (db : Datablock) (length : Nat) (reAlloc : Option Buffer) :
    Datablock × Option ErrorCode :=
  if db.freeBytes ≥ length then (db, none)
  else
    let newBlockSize := rgAlignBlockSize ((db.blockSize + length - db.freeBytes) % 2 ^ 32)
    if newBlockSize > maximumDatablockSize then (db, some .outOfMemory)
    else
      match reAlloc with
      | none => (db, some .outOfMemory)
      | some behind =>
        let db := { db with mem := fun i => if i < db.blockSize then db.mem i else behind i }
        ((rgCompactDatablock db).growTo newBlockSize, none)

/-- `RgAllocKeyRecordFromDatablock` gives the offset of the record. -/
def rgAllocKeyRecordFromDatablock (db : Datablock) (length : Nat) :
    Datablock × Except ErrorCode Nat :=
  if length > db.freeBytes then (db, .error .outOfMemory)
  else
    let db := rgCompactDatablock db
    let free := db.firstFreeOffset
    let allocatedSize := dwordAt db.mem free
    if length > allocatedSize then (db, .error .outOfMemory)
    else
      let extraBytes := allocatedSize - length
      if extraBytes ≥ minimumFreeRecordLength then
        let m := setDword db.mem free length
        let m := setDword m (free + length + 8) (dwordAt m (free + 8))
        let m := setDword m (free + length + 4) REG_NULL
        let m := setDword m (free + length) extraBytes
        ({ db with
            mem := m
            firstFreeOffset := free + length
            freeBytes := db.freeBytes - length }, .ok free)
      else
        ({ db with
            firstFreeOffset := dwordAt db.mem (free + 8)
            freeBytes := db.freeBytes - allocatedSize }, .ok free)

/-- The loop of `RgAllocKeyRecordIndex` over the next `count` indexes. -/
def nextHole (table : KeyRecordTable) : Nat → Nat → Nat
  | 0, index => index
  | count + 1, index => if table index = 0 then index else nextHole table count (index + 1)

def rgAllocKeyRecordIndex (db : Datablock) : Datablock × Nat :=
  let index := db.firstFreeIndex
  if index > db.maxAllocatedIndex then
    ({ db with maxAllocatedIndex := index, firstFreeIndex := index + 1 }, index)
  else
    ({ db with
        firstFreeIndex := nextHole db.table (db.maxAllocatedIndex - index) (index + 1) }, index)

/-- What `RgAllocKeyRecord` does with a record that it got from a datablock. -/
def Datablock.addKeyRecord (db : Datablock) (blockIndex offset : Nat) : Datablock :=
  let alloc := rgAllocKeyRecordIndex db
  { alloc.1 with
    mem := setDword alloc.1.mem (offset + 4) (makelong alloc.2 blockIndex)
    table := storeEntry alloc.1.table alloc.2 offset }

/-- The last loop of `RgExtendKeyRecord`, which looks for the link to a free
record; `fuel` bounds the number of free records. -/
def relink (m : Buffer) (freeOffset newFreeOffset : Nat) : Nat → Nat → Buffer
  | 0, _ => m
  | fuel + 1, offset =>
    if offset = REG_NULL then m
    else
      let next := dwordAt m (offset + 8)
      if next = freeOffset then setDword m (offset + 8) newFreeOffset
      else relink m freeOffset newFreeOffset fuel next

def rgExtendKeyRecord (db : Datablock) (length keyRecord : Nat) : Datablock × Option ErrorCode :=
  let allocatedSize := dwordAt db.mem keyRecord
  let free := keyRecord + allocatedSize
  if free ≥ db.blockSize ∨ hasIndex db.mem free = true then (db, some .outOfMemory)
  else
    -- the difference is a `UINT`
    let wanted := (length + 2 ^ 32 - allocatedSize) % 2 ^ 32
    let freeSize := dwordAt db.mem free
    if wanted > freeSize then (db, some .outOfMemory)
    else
      let extraBytes := freeSize - wanted
      let next := dwordAt db.mem (free + 8)
      let split := decide (extraBytes ≥ minimumFreeRecordLength)
      let m :=
        if split then
          setDword (setDword (setDword db.mem (free + wanted + 8) next) (free + wanted + 4) REG_NULL)
            (free + wanted) extraBytes
        else db.mem
      let newFreeOffset := if split then free + wanted else next
      let taken := if split then wanted else freeSize
      let m := setDword m keyRecord (allocatedSize + taken)
      let db := { db with freeBytes := db.freeBytes - taken }
      if db.firstFreeOffset = free then
        ({ db with mem := m, firstFreeOffset := newFreeOffset }, none)
      else
        ({ db with mem := relink m free newFreeOffset db.blockSize db.firstFreeOffset }, none)

def rgFreeKeyRecord (db : Datablock) (keyRecord : Nat) : Datablock :=
  { db with
    mem := setDword (setDword db.mem (keyRecord + 4) REG_NULL) (keyRecord + 8) db.firstFreeOffset
    firstFreeOffset := keyRecord
    freeBytes := db.freeBytes + dwordAt db.mem keyRecord }

def rgFreeKeyRecordIndex (db : Datablock) (index : Nat) : Datablock :=
  { db with
    firstFreeIndex := if db.firstFreeIndex > index then index else db.firstFreeIndex
    table := storeEntry db.table index 0 }

/-- What `RgReAllocKeyRecord` does with a new record in the datablock of the old one. -/
def Datablock.replaceKeyRecord (db : Datablock) (index keyRecord : Nat) : Datablock :=
  let old := db.table index
  let m := moveMemory db.mem (keyRecord + 4) (old + 4) (dwordAt db.mem (old + 8) - 4)
  let db := rgFreeKeyRecord { db with mem := m } old
  { db with table := storeEntry db.table index keyRecord }

/-- `RgCreateDatablock` in memory of any contents. -/
def rgCreateDatablock (length : Nat) (behind : Buffer) (table : KeyRecordTable) : Datablock :=
  let blockSize := rgAlignBlockSize ((length + sizeofDatablockHeader) % 2 ^ 32)
  let freeBytes := blockSize - sizeofDatablockHeader
  Datablock.rebuildTable
    { mem := setFree behind sizeofDatablockHeader freeBytes REG_NULL
      firstFreeOffset := sizeofDatablockHeader
      maxAllocatedIndex := 0
      table
      blockSize
      freeBytes
      firstFreeIndex := 0 }

end SdkTools.Registry
