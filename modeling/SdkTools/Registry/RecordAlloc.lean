import SdkTools.Registry.DatablockGrowth

/-!
# Allocating a key record

A record taken from the free list is part of the block but neither free nor in
use, until it gets an index or replaces another record.
-/

namespace SdkTools.Registry

set_option autoImplicit false

/-- The records and the free list of a block, without its index table. -/
structure BlockOk (db : Datablock) (l : List Rec) (chain frees : List Nat) (bytes : Nat) :
    Prop where
  small : db.blockSize < 2 ^ 31
  aligned : db.blockSize % 4096 = 0
  tiles : Tiles db.mem sizeofDatablockHeader l db.blockSize
  linked : Chain db.mem db.firstFreeOffset chain
  visits : chain.Perm frees
  freeBytes : db.freeBytes = bytes

/-- The index table and the indexes of a block. -/
structure Indexed (b : Nat) (db : Datablock) (l : List Rec) : Prop where
  number : b < 0xFFFF
  addressed : Addressed b l
  table : ∀ i < keyRecordsPerDatablock, db.table i = entryOf b l i
  index : IndexOk b l db.firstFreeIndex db.maxAllocatedIndex

theorem DbInv.block {b : Nat} {db : Datablock} {l : List Rec} {chain : List Nat}
    (h : DbInv b db l chain) :
    BlockOk db l chain (freeOffsets sizeofDatablockHeader l) (freeTotal l) :=
  ⟨h.small, h.aligned, h.tiles, h.linked, h.visits, h.freeBytes⟩

theorem DbInv.indexed {b : Nat} {db : Datablock} {l : List Rec} {chain : List Nat}
    (h : DbInv b db l chain) : Indexed b db l :=
  ⟨h.number, h.addressed, h.table, h.index⟩

theorem BlockOk.dbInv {b : Nat} {db : Datablock} {l : List Rec} {chain : List Nat}
    (h : BlockOk db l chain (freeOffsets sizeofDatablockHeader l) (freeTotal l))
    (hi : Indexed b db l) : DbInv b db l chain :=
  ⟨hi.number, h.small, h.aligned, h.tiles, h.linked, h.visits, h.freeBytes, hi.addressed,
    hi.table, hi.index⟩

/-- Between `pre` and `rest` lies a record of `size` bytes that has been taken
from the free list and has no index yet. -/
structure Pending (b : Nat) (db : Datablock) (pre : List Rec) (size : Nat) (rest : List Rec)
    (chain : List Nat) : Prop where
  block : BlockOk db (pre ++ .free size :: rest) chain
    (freeOffsets sizeofDatablockHeader pre ++
      freeOffsets (sizeofDatablockHeader + total pre + size) rest)
    (freeTotal pre + freeTotal rest)
  indexed : Indexed b db (pre ++ .free size :: rest)

/-- The free record at the end of a packed block. -/
theorem DbInv.last {b : Nat} {db : Datablock} {l : List Rec} {size : Nat}
    (h : DbInv b db (packed l size) [sizeofDatablockHeader + total (usedOf l)]) :
    db.firstFreeOffset = sizeofDatablockHeader + total (usedOf l) ∧
    dwordAt db.mem (sizeofDatablockHeader + total (usedOf l)) = size ∧
    dwordAt db.mem (sizeofDatablockHeader + total (usedOf l) + 8) = REG_NULL ∧
    db.freeBytes = size := by
  obtain ⟨hhead, -, hnext⟩ := h.linked
  obtain ⟨-, hfree, -⟩ := tiles_append.mp h.tiles
  exact ⟨hhead, hfree.1, hnext, h.freeBytes.trans (freeTotal_packed l size)⟩

/-- Taking the whole free record. -/
theorem DbInv.takeAll {b : Nat} {db : Datablock} {l : List Rec} {size : Nat}
    (h : DbInv b db (packed l size) [sizeofDatablockHeader + total (usedOf l)]) :
    Pending b { db with firstFreeOffset := REG_NULL, freeBytes := 0 } (usedOf l) size [] [] := by
  constructor
  · refine ⟨h.small, h.aligned, h.tiles, rfl, ?_, ?_⟩
    · rw [freeOffsets_used]
      exact List.Perm.nil
    · rw [freeTotal_used]
      rfl
  · exact ⟨h.number, h.addressed, h.table, h.index⟩

/-- Taking the first bytes of the free record. -/
theorem DbInv.takeFirst {b : Nat} {db : Datablock} {l : List Rec} {size length : Nat}
    (h : DbInv b db (packed l size) [sizeofDatablockHeader + total (usedOf l)])
    (hlo : 12 ≤ length) (hextra : length + 12 ≤ size) {m : Buffer}
    (hm : m = setDword (setDword (setDword (setDword db.mem
      (sizeofDatablockHeader + total (usedOf l)) length)
      (sizeofDatablockHeader + total (usedOf l) + length + 8) REG_NULL)
      (sizeofDatablockHeader + total (usedOf l) + length + 4) REG_NULL)
      (sizeofDatablockHeader + total (usedOf l) + length) (size - length)) :
    Pending b
      { db with
        mem := m
        firstFreeOffset := sizeofDatablockHeader + total (usedOf l) + length
        freeBytes := size - length } (usedOf l) length [.free (size - length)]
      [sizeofDatablockHeader + total (usedOf l) + length] := by
  obtain ⟨hhead, hsize, hnext, hbytes⟩ := h.last
  obtain ⟨hused, hfree, hend⟩ := tiles_append.mp h.tiles
  have hblock := h.size_eq
  rw [usedOf_packed, hbytes] at hblock
  have hsmall := h.small
  have hnull : dwordAt db.mem (sizeofDatablockHeader + total (usedOf l) + 4) = REG_NULL := hfree.2.1
  generalize hoff : sizeofDatablockHeader + total (usedOf l) = off at *
  have hsame : ∀ i < off, m i = db.mem i := by
    intro i hi
    rw [hm, setDword_ne (by omega), setDword_ne (by omega), setDword_ne (by omega),
      setDword_ne (by omega)]
  have haddresses : addresses (usedOf l ++ .free length :: [.free (size - length)]) =
      addresses (packed l size) := by
    rw [addresses_packed, addresses_append, addresses_used]
    exact List.append_nil _
  constructor
  · constructor
    · exact h.small
    · exact h.aligned
    · rw [tiles_append, hoff]
      refine ⟨hused.congr fun i _ hi => hsame i hi, ⟨?_, ?_, hlo⟩, ⟨?_, ?_, by omega⟩, ?_⟩
      · rw [hm, dwordAt_setDword_ne (by omega), dwordAt_setDword_ne (by omega),
          dwordAt_setDword_ne (by omega), dwordAt_setDword (by omega)]
      · rw [hm, dwordAt_setDword_ne (by omega), dwordAt_setDword_ne (by omega),
          dwordAt_setDword_ne (by omega), dwordAt_setDword_ne (by omega)]
        exact hnull
      · rw [hm]
        exact dwordAt_setDword (by omega)
      · rw [hm, dwordAt_setDword_ne (by simp only [Rec.size]; omega)]
        exact dwordAt_setDword (by decide)
      · show off + length + (size - length) = db.blockSize
        omega
    · refine ⟨rfl, ?_, ?_⟩
      · simp only [REG_NULL]
        omega
      · show dwordAt m (off + length + 8) = REG_NULL
        rw [hm, dwordAt_setDword_ne (by omega), dwordAt_setDword_ne (by omega),
          dwordAt_setDword (by decide)]
    · rw [freeOffsets_used, hoff]
      exact List.Perm.refl _
    · rw [freeTotal_used]
      show size - length = 0 + (size - length + 0)
      omega
  · refine ⟨h.number, h.addressed.of_eq haddresses, fun i hi => (h.table i hi).trans ?_,
      h.index.of_eq haddresses⟩
    simp only [entryOf, packed, find_append, find]

/-- Allocating from a datablock fails and changes nothing, or takes a record
that is long enough. -/
theorem DbInv.allocFrom {b : Nat} {db : Datablock} {l : List Rec} {chain : List Nat}
    {length : Nat} (h : DbInv b db l chain) (hlo : 12 ≤ length) :
    (db.freeBytes < length ∧
      rgAllocKeyRecordFromDatablock db length = (db, .error .outOfMemory)) ∨
    ∃ db' size rest chain', length ≤ size ∧ addresses rest = [] ∧
      rgAllocKeyRecordFromDatablock db length =
        (db', .ok (sizeofDatablockHeader + total (usedOf l))) ∧
      Pending b db' (usedOf l) size rest chain' := by
  by_cases hlt : db.freeBytes < length
  · left
    refine ⟨hlt, ?_⟩
    simp only [rgAllocKeyRecordFromDatablock, if_pos hlt]
  · right
    rcases h.compact with ⟨-, -, hzero, -⟩ | ⟨hbytes, -, hinv⟩
    · omega
    · obtain ⟨hhead, hsize, hnext, -⟩ := hinv.last
      simp only [rgAllocKeyRecordFromDatablock, if_neg hlt, hhead, hsize, hnext, hbytes]
      by_cases hsplit : db.freeBytes - length ≥ minimumFreeRecordLength
      · have h34 : minimumFreeRecordLength = 34 := rfl
        have hcopy : dwordAt (setDword (rgCompactDatablock db).mem
            (sizeofDatablockHeader + total (usedOf l)) length)
            (sizeofDatablockHeader + total (usedOf l) + 8) = REG_NULL := by
          rw [dwordAt_setDword_ne (by omega), hnext]
        rw [if_pos hsplit, hcopy]
        exact ⟨_, _, _, _, Nat.le_refl length, rfl, rfl, hinv.takeFirst hlo (by omega) rfl⟩
      · rw [if_neg hsplit, Nat.sub_self]
        exact ⟨_, _, _, _, by omega, rfl, rfl, hinv.takeAll⟩

end SdkTools.Registry
