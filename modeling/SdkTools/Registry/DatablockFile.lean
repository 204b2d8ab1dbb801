import SdkTools.Registry.RecordExtension

/-!
# The datablocks of a registry file

`RgAllocKeyRecord` looks for room in all datablocks of a file, and the calls on a
key record work in the datablock of its address.
-/

namespace SdkTools.Registry

set_option autoImplicit false

/-- What the calls inside of `RgAllocKeyRecord` come to: which datablocks can be
locked in a pass, what lies behind a datablock that is reallocated, and the
buffers of a new datablock. -/
structure RecordEnv where
  lock : Bool → Nat → Bool
  reAlloc : Nat → Option Buffer
  create : Option (Buffer × KeyRecordTable)

/-- A datablock in which a pass of `RgAllocKeyRecord` does not look any further. -/
def skips (fExtendDatablock : Bool) (length : Nat) (db : Datablock) : Bool :=
  decide (db.firstFreeIndex ≥ keyRecordsPerDatablock) ||
    if fExtendDatablock then
      decide ((db.blockSize + 2 ^ 32 - db.freeBytes + length) % 2 ^ 32 > maximumDatablockSize)
    else decide (length > db.freeBytes)

/-- What a pass does with a datablock that it has locked. -/
def tryDatablock (fExtendDatablock : Bool) (length : Nat) (reAlloc : Option Buffer)
    (db : Datablock) : Datablock × Except ErrorCode Nat :=
  if fExtendDatablock then
    match rgExtendDatablock db length reAlloc with
    | (db, some e) => (db, .error e)
    | (db, none) => rgAllocKeyRecordFromDatablock db length
  else rgAllocKeyRecordFromDatablock db length

/-- A pass over the first datablocks from the last one down; it gives the datablock
and the offset of the record. -/
def allocPass (fExtendDatablock : Bool) (length : Nat) (env : RecordEnv) :
    Nat → List Datablock → List Datablock × Option (Nat × Nat)
  | 0, blocks => (blocks, none)
  | blockIndex + 1, blocks =>
    match blocks[blockIndex]? with
    | none => (blocks, none)
    | some db =>
      if skips fExtendDatablock length db || !env.lock fExtendDatablock blockIndex then
        allocPass fExtendDatablock length env blockIndex blocks
      else
        match tryDatablock fExtendDatablock length (env.reAlloc blockIndex) db with
        | (db, .ok offset) => (blocks.set blockIndex db, some (blockIndex, offset))
        | (db, .error _) =>
          allocPass fExtendDatablock length env blockIndex (blocks.set blockIndex db)

/-- The end of `RgAllocKeyRecord` for a record that was found. -/
def allocated (blocks : List Datablock) (blockIndex offset : Nat) :
    List Datablock × Except ErrorCode Nat :=
  match blocks[blockIndex]? with
  | none => (blocks, .error .outOfMemory)
  | some db =>
    (blocks.set blockIndex (db.addKeyRecord blockIndex offset),
      .ok (makelong db.firstFreeIndex blockIndex))

/-- What `RgAllocKeyRecord` does with a datablock that it has made, if building its
table went well. -/
def allocFromNew (blocks : List Datablock) (length : Nat) (db : Datablock)
    (built : Except ErrorCode KeyRecordTable) : List Datablock × Except ErrorCode Nat :=
  match built with
  | .error _ => (blocks ++ [db], .error .outOfMemory)
  | .ok _ =>
    match rgAllocKeyRecordFromDatablock db length with
    | (db, .error _) => (blocks ++ [db], .error .outOfMemory)
    | (db, .ok offset) => allocated (blocks ++ [db]) blocks.length offset

/-- `MakeNewDatablock` of `RgAllocKeyRecord`. -/
def makeNewDatablock (blocks : List Datablock) (length : Nat) (env : RecordEnv) :
    List Datablock × Except ErrorCode Nat :=
  if blocks.length ≥ datablocksPerFile then (blocks, .error .outOfMemory)
  else
    match env.create with
    | none => (blocks, .error .outOfMemory)
    | some (behind, table) =>
      let db := rgCreateDatablock length behind table
      allocFromNew blocks length db (rgBuildKeyRecordTable db.mem db.blockSize table).2

/-- `RgAllocKeyRecord` gives the datablock address of the new key record. In a file
without datablocks both passes find nothing. -/
def rgAllocKeyRecord (blocks : List Datablock) (length : Nat) (env : RecordEnv) :
    List Datablock × Except ErrorCode Nat :=
  match allocPass false length env blocks.length blocks with
  | (blocks, some (blockIndex, offset)) => allocated blocks blockIndex offset
  | (blocks, none) =>
    match allocPass true length env blocks.length blocks with
    | (blocks, some (blockIndex, offset)) => allocated blocks blockIndex offset
    | (blocks, none) => makeNewDatablock blocks length env

/-- `MAXIMUM_KEY_RECORD_SIZE` -/
def maximumKeyRecordSize : Nat := maximumDatablockSize - sizeofDatablockHeader

/-- `RgReAllocKeyRecord` as far as it works in the datablock of the record: it
extends the record, or else moves it to a new one. -/
def rgReAllocKeyRecord (db : Datablock) (index length : Nat) : Datablock :=
  if length > maximumKeyRecordSize then db
  else
    match rgExtendKeyRecord db length (db.table index) with
    | (db, none) => db
    | (db, some _) =>
      match rgAllocKeyRecordFromDatablock db length with
      | (db, .error _) => db
      | (db, .ok offset) => db.replaceKeyRecord index offset

/-- The bytes of the key record of an index, from its record size on. -/
def keyRecord (db : Datablock) (index : Nat) : Option (List UCHAR) :=
  if db.table index = 0 then none
  else some (bytesAt db.mem (db.table index + 8) (dwordAt db.mem (db.table index) - 8))

end SdkTools.Registry
