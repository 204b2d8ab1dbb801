import SdkTools.Registry.KeynodeRuns

/-!
# Keynode blocks

The conversion of `regknode.c` between the keynodes of a block in memory and those of a
Win95 file: `RgPackKeynode`, `RgUnpackKeynode` and the walk of `RgProcessKeynodeBlock`.
-/

namespace SdkTools.Registry

set_option autoImplicit false

/-! ## Keynodes -/

def KNS_USED : BitVec 32 := 0x00000000
def KNS_FREE : BitVec 32 := 0x80000000
def KNS_ALLFREE : BitVec 32 := 0xFFFFFFFF

def KNF_INUSE : BitVec 8 := 0x01

def NULL_BLOCK_INDEX : BitVec 16 := 0xFFFF

/-- A `W95KEYNODE`; the size and the link of a free record share the memory of the hash
and of `W95Reserved1`. -/
structure W95Keynode where
  w95State : BitVec 32
  w95Hash : BitVec 32
  w95Reserved1 : BitVec 32
  w95ParentOffset : BitVec 32
  w95ChildOffset : BitVec 32
  w95NextOffset : BitVec 32
  w95DatablockAddress : BitVec 32

def W95Keynode.w95FreeRecordSize (w : W95Keynode) : BitVec 32 := w.w95Hash
def W95Keynode.w95NextFreeOffset (w : W95Keynode) : BitVec 32 := w.w95Reserved1

/-- A `KEYNODE` with all its bits; `parentAndRecord` is also the size of a free record. -/
structure KEYNODE where
  nextIndex : BitVec 24
  flags : BitVec 8
  childIndex : BitVec 24
  binNumber : BitVec 8
  parentAndRecord : BitVec 32
  blockIndex : BitVec 16
  hash : BitVec 16

namespace KEYNODE

def parentIndex (k : KEYNODE) : BitVec 24 := k.parentAndRecord.setWidth 24
def keyRecordIndex (k : KEYNODE) : BitVec 8 := k.parentAndRecord.extractLsb' 24 8
def freeRecordSize (k : KEYNODE) : BitVec 32 := k.parentAndRecord
def inUse (k : KEYNODE) : Bool := k.flags &&& KNF_INUSE != 0

/-- The datablock address; a null block makes it null. -/
def datablock (k : KEYNODE) : Option (BitVec 8 × BitVec 16) :=
  if k.blockIndex = NULL_BLOCK_INDEX then none else some (k.keyRecordIndex, k.blockIndex)

end KEYNODE

/-- The offset of an index in a `DWORD`. -/
def offsetOf (index : BitVec 24) : BitVec 32 := BitVec.ofNat 32 (rgIndexToOffset index.toNat)

/-- The index of an offset, as the 24 bits of a keynode keep it. -/
def keynodeIndexOf (offset : BitVec 32) : BitVec 24 := BitVec.ofNat 24 (rgOffsetToIndex offset.toNat)

def rgPackKeynode (keynode : KEYNODE) (w95 : W95Keynode) : KEYNODE × Bool :=
  let keynode := { keynode with flags := 0 }
  if w95.w95State = KNS_USED then
    ({ keynode with
        flags := KNF_INUSE
        parentAndRecord :=
          w95.w95DatablockAddress.setWidth 8 ++ keynodeIndexOf w95.w95ParentOffset
        nextIndex := keynodeIndexOf w95.w95NextOffset
        childIndex := keynodeIndexOf w95.w95ChildOffset
        blockIndex := w95.w95DatablockAddress.extractLsb' 16 16
        hash := w95.w95Hash.setWidth 16 }, false)
  else if w95.w95State = KNS_FREE ∨ w95.w95State = KNS_ALLFREE then
    -- A large free record is taken for the last record of the table.
    ({ keynode with
        parentAndRecord := w95.w95FreeRecordSize
        nextIndex := keynodeIndexOf w95.w95NextFreeOffset },
      decide (w95.w95FreeRecordSize.toNat > sizeofW95Keynode * 2))
  else (keynode, false)

def rgUnpackKeynode (keynode : KEYNODE) (w95 : W95Keynode) : W95Keynode × Bool :=
  if keynode.inUse then
    ({ w95 with
        w95State := KNS_USED
        w95ParentOffset := offsetOf keynode.parentIndex
        w95NextOffset := offsetOf keynode.nextIndex
        w95ChildOffset := offsetOf keynode.childIndex
        w95Hash := keynode.hash.setWidth 32
        w95DatablockAddress :=
          if keynode.blockIndex = NULL_BLOCK_INDEX then BitVec.ofNat 32 REG_NULL
          else keynode.blockIndex ++ keynode.keyRecordIndex.setWidth 16 }, false)
  else
    ({ w95 with
        w95State := KNS_FREE
        w95Hash := keynode.freeRecordSize
        w95Reserved1 := offsetOf keynode.nextIndex }, false)

/-! ## The walk -/

section Walk

variable {σ : Type}

/-- The loops of `RgProcessKeynodeBlock` from an offset in the table on; `lpKeynode` is the
place in the block. Only a slot across the end of the first page needs `stopOffset`. -/
def processFrom (proc : Nat → Nat → σ → σ × Bool) (stopOffset curOffset lpKeynode : Nat)
    (s : σ) : σ :=
  if (curOffset < stopOffset ∧ curOffset / pageSize = 0) ∨
      curOffset / pageSize = (curOffset + sizeofW95Keynode) / pageSize then
    let r := proc lpKeynode curOffset s
    if r.2 then r.1
    else processFrom proc stopOffset (curOffset + sizeofW95Keynode) (lpKeynode + 1) r.1
  else
    let nextPage := curOffset + (pageSize - curOffset % pageSize)
    if nextPage ≥ stopOffset then s
    else processFrom proc stopOffset nextPage (indexInBlock (rgOffsetToIndex nextPage)) s
termination_by (stopOffset - curOffset, pageSize - curOffset % pageSize)
decreasing_by
  · simp only [sizeofW95Keynode, pageSize, Prod.lex_def] at *
    omega
  · simp only [pageSize, Prod.lex_def] at *
    omega

/-- The first block begins with the header of the table. -/
def skipHeader (startOffset : Nat) : Nat :=
  startOffset + if startOffset = 0 then sizeofKeynodeHeader else 0

def rgProcessKeynodeBlock (startOffset blockSize : Nat) (proc : Nat → Nat → σ → σ × Bool)
    (s : σ) : σ :=
  if skipHeader startOffset ≥ startOffset + blockSize then s
  else
    processFrom proc (startOffset + blockSize) (skipHeader startOffset)
      (indexInBlock (rgOffsetToIndex (skipHeader startOffset))) s

end Walk

/-- The keynodes of the block in memory, by their place in it. -/
abbrev KeynodeBlock := Nat → KEYNODE

/-- The keynodes of the block of the file, by their offset in the table. -/
abbrev W95Block := Nat → W95Keynode

def sizeofW95KeynodeBlock : Nat := keynodesPerBlock * sizeofW95Keynode

/-- The size that `RgGetKnBlockIOInfo` gives for a block of an uncompacted table. -/
def fileBlockSize (curTotalKnSize block : Nat) : Nat :=
  let header := if block = 0 then sizeofKeynodeHeader else 0
  let size := sizeofW95KeynodeBlock - header
  let offset := block * sizeofW95KeynodeBlock + header
  if offset + size > curTotalKnSize then curTotalKnSize - offset else size

/-- The unpacking of a block in `RgWriteKeynodeBlock`. -/
def unpackBlock (curTotalKnSize block : Nat) (keynodes : KeynodeBlock) : W95Block → W95Block :=
  rgProcessKeynodeBlock (block * sizeofW95KeynodeBlock) (fileBlockSize curTotalKnSize block)
    fun kn offset w95 =>
      let r := rgUnpackKeynode (keynodes kn) (w95 offset)
      (Function.update w95 offset r.1, r.2)

/-- The packing of a block in `RgLockKeynode`. -/
def packBlock (fileKnSize block : Nat) (w95 : W95Block) : KeynodeBlock → KeynodeBlock :=
  rgProcessKeynodeBlock (block * sizeofW95KeynodeBlock)
    (min sizeofW95KeynodeBlock (fileKnSize - block * sizeofW95KeynodeBlock))
    fun kn offset keynodes =>
      let r := rgPackKeynode (keynodes kn) (w95 offset)
      (Function.update keynodes kn r.1, r.2)

end SdkTools.Registry
