import SdkTools.Registry.KeynodeVisits

/-!
# A keynode block through a Win95 file

What packing restores of a block that was unpacked: the slots in front of the first large
free record, with that record.
-/

namespace SdkTools.Registry

set_option autoImplicit false

open SdkTools.Lib

/-! ## One keynode -/

theorem rgIndexToOffset_lt {n : Nat} (h : n < 0xFFFFFF) : rgIndexToOffset n < REG_NULL := by
  rw [rgIndexToOffset_eq h]
  unfold REG_NULL
  split <;> omega

/-- The index of the offset of an index, whether a slot has it or not. -/
theorem rgOffsetToIndex_rgIndexToOffset {n : Nat} (h : n < 0xFFFFFF) :
    rgOffsetToIndex (rgIndexToOffset n) = n := by
  have hlt := rgIndexToOffset_lt h
  rw [rgOffsetToIndex, if_neg (Nat.ne_of_lt hlt), rgIndexToOffset_eq h]
  unfold sizeofW95Keynode
  split <;> omega

theorem keynodeIndexOf_offsetOf (x : BitVec 24) : keynodeIndexOf (offsetOf x) = x := by
  have hx := x.isLt
  unfold keynodeIndexOf offsetOf
  rcases Nat.lt_or_ge x.toNat 0xFFFFFF with h | h
  · have hlt := rgIndexToOffset_lt h
    have hmod : rgIndexToOffset x.toNat % 2 ^ 32 = rgIndexToOffset x.toNat := by
      unfold REG_NULL at hlt
      omega
    rw [BitVec.toNat_ofNat, hmod, rgOffsetToIndex_rgIndexToOffset h, BitVec.ofNat_toNat,
      BitVec.setWidth_eq]
  · have hnull : isNullKeynodeIndex x.toNat = true := decide_eq_true h
    rw [rgIndexToOffset, if_pos hnull]
    apply BitVec.eq_of_toNat_eq
    have hx : x.toNat = 0xFFFFFF := by omega
    rw [hx]
    decide

/-- The flags, the links, the datablock address and the hash of a keynode in use, and the link
and the size of a free one. -/
structure Restored (k k' : KEYNODE) : Prop where
  flags : k'.flags = k.flags &&& KNF_INUSE
  next : k'.nextIndex = k.nextIndex
  used : k.inUse = true → k'.parentIndex = k.parentIndex ∧ k'.childIndex = k.childIndex ∧
    k'.datablock = k.datablock ∧ k'.hash = k.hash
  free : k.inUse = false → k'.freeRecordSize = k.freeRecordSize

/-- A free record that ends the packing. -/
def KEYNODE.stops (k : KEYNODE) : Bool :=
  !k.inUse && decide (k.freeRecordSize.toNat > sizeofW95Keynode * 2)

theorem KEYNODE.flags_eq (k : KEYNODE) :
    k.flags &&& KNF_INUSE = if k.inUse then KNF_INUSE else 0 := by
  unfold inUse
  generalize k.flags = f
  revert f
  decide

theorem pack_unpack (k k₀ : KEYNODE) (w : W95Keynode) :
    Restored k (rgPackKeynode k₀ (rgUnpackKeynode k w).1).1 ∧
      (rgPackKeynode k₀ (rgUnpackKeynode k w).1).2 = k.stops := by
  have hflags := k.flags_eq
  cases huse : k.inUse with
  | true =>
    rw [huse, if_pos rfl] at hflags
    have hpack : rgPackKeynode k₀ (rgUnpackKeynode k w).1 =
        ({ k₀ with
            flags := KNF_INUSE
            parentAndRecord := (if k.blockIndex = NULL_BLOCK_INDEX then BitVec.ofNat 32 REG_NULL
              else k.blockIndex ++ k.keyRecordIndex.setWidth 16).setWidth 8 ++ k.parentIndex
            nextIndex := k.nextIndex
            childIndex := k.childIndex
            blockIndex := (if k.blockIndex = NULL_BLOCK_INDEX then BitVec.ofNat 32 REG_NULL
              else k.blockIndex ++ k.keyRecordIndex.setWidth 16 : BitVec 32).extractLsb' 16 16
            hash := k.hash }, false) := by
      rw [rgUnpackKeynode, if_pos huse, rgPackKeynode, if_pos rfl]
      simp [keynodeIndexOf_offsetOf]
    rw [hpack]
    refine ⟨⟨hflags.symm, rfl, fun _ => ⟨?_, rfl, ?_, rfl⟩, fun h => ?_⟩, ?_⟩
    · exact BitVec.setWidth_append_eq_right
    · unfold KEYNODE.datablock
      by_cases hnull : k.blockIndex = NULL_BLOCK_INDEX
      · simp only [if_pos hnull]
        rfl
      · have hrecord : KEYNODE.keyRecordIndex
            { k₀ with
              flags := KNF_INUSE
              parentAndRecord :=
                (k.blockIndex ++ k.keyRecordIndex.setWidth 16 : BitVec 32).setWidth 8 ++ k.parentIndex } =
            k.keyRecordIndex := by
          refine BitVec.extractLsb'_append_eq_left.trans ?_
          rw [BitVec.setWidth_append]
          simp
        simp only [if_neg hnull, BitVec.extractLsb'_append_eq_left]
        exact congrArg (fun r => some (r, k.blockIndex)) hrecord
    · cases huse.symm.trans h
    · rw [KEYNODE.stops, huse]
      rfl
  | false =>
    rw [huse, if_neg Bool.false_ne_true] at hflags
    have hpack : rgPackKeynode k₀ (rgUnpackKeynode k w).1 =
        ({ k₀ with
            flags := 0
            parentAndRecord := k.freeRecordSize
            nextIndex := k.nextIndex },
          decide (k.freeRecordSize.toNat > sizeofW95Keynode * 2)) := by
      rw [rgUnpackKeynode, if_neg (by simp [huse]), rgPackKeynode, if_neg (by decide : KNS_FREE ≠ KNS_USED),
        if_pos (.inl rfl)]
      simp [keynodeIndexOf_offsetOf, W95Keynode.w95FreeRecordSize, W95Keynode.w95NextFreeOffset]
    rw [hpack]
    refine ⟨⟨hflags.symm, rfl, fun h => ?_, fun _ => rfl⟩, ?_⟩
    · cases huse.symm.trans h
    · rw [KEYNODE.stops, huse]
      rfl

/-! ## Walks that write -/

/-- Unpacking in the order of the visits. -/
def unpackAt (keynodes : KeynodeBlock) (kn offset : Nat) (w95 : W95Block) : W95Block × Bool :=
  let r := rgUnpackKeynode (keynodes kn) (w95 offset)
  (Function.update w95 offset r.1, r.2)

/-- Packing in the order of the visits. -/
def packAt (w95 : W95Block) (kn offset : Nat) (keynodes : KeynodeBlock) : KeynodeBlock × Bool :=
  let r := rgPackKeynode (keynodes kn) (w95 offset)
  (Function.update keynodes kn r.1, r.2)

theorem rgUnpackKeynode_goes_on (k : KEYNODE) (w : W95Keynode) : (rgUnpackKeynode k w).2 = false := by
  unfold rgUnpackKeynode
  split <;> rfl

theorem runVisits_unpack_cons (keynodes : KeynodeBlock) (v : Nat × Nat) (l : List (Nat × Nat))
    (w95 : W95Block) :
    runVisits (unpackAt keynodes) (v :: l) w95 = runVisits (unpackAt keynodes) l
      (Function.update w95 v.2 (rgUnpackKeynode (keynodes v.1) (w95 v.2)).1) := by
  rw [runVisits]
  simp only [unpackAt, rgUnpackKeynode_goes_on, Bool.false_eq_true, if_false]

theorem runVisits_unpack_other (keynodes : KeynodeBlock) {l : List (Nat × Nat)} {offset : Nat}
    (h : ∀ v ∈ l, v.2 ≠ offset) (w95 : W95Block) :
    runVisits (unpackAt keynodes) l w95 offset = w95 offset := by
  induction l generalizing w95 with
  | nil => rfl
  | cons v l ih =>
    obtain ⟨hv, hl⟩ := List.forall_mem_cons.mp h
    rw [runVisits_unpack_cons, ih hl, Function.update_of_ne hv.symm]

/-- Each visited keynode is unpacked. -/
theorem runVisits_unpack (keynodes : KeynodeBlock) {l : List (Nat × Nat)}
    (hsorted : l.Pairwise fun v w => v.2 < w.2) {v : Nat × Nat} (hv : v ∈ l) (w95 : W95Block) :
    runVisits (unpackAt keynodes) l w95 v.2 = (rgUnpackKeynode (keynodes v.1) (w95 v.2)).1 := by
  induction l generalizing w95 with
  | nil => cases hv
  | cons u l ih =>
    obtain ⟨hu, hsorted⟩ := List.pairwise_cons.mp hsorted
    rw [runVisits_unpack_cons]
    rcases List.mem_cons.mp hv with rfl | hv
    · rw [runVisits_unpack_other keynodes (fun w hw => Nat.ne_of_gt (hu w hw)),
        Function.update_self]
    · rw [ih hsorted hv, Function.update_of_ne (Nat.ne_of_gt (hu v hv))]

theorem runVisits_pack_cons (w95 : W95Block) (v : Nat × Nat) (l : List (Nat × Nat))
    (keynodes : KeynodeBlock) :
    runVisits (packAt w95) (v :: l) keynodes =
      if (rgPackKeynode (keynodes v.1) (w95 v.2)).2 then
        Function.update keynodes v.1 (rgPackKeynode (keynodes v.1) (w95 v.2)).1
      else runVisits (packAt w95) l
        (Function.update keynodes v.1 (rgPackKeynode (keynodes v.1) (w95 v.2)).1) := rfl

theorem runVisits_pack_other (w95 : W95Block) {l : List (Nat × Nat)} {kn : Nat}
    (h : ∀ v ∈ l, v.1 ≠ kn) (keynodes : KeynodeBlock) :
    runVisits (packAt w95) l keynodes kn = keynodes kn := by
  induction l generalizing keynodes with
  | nil => rfl
  | cons v l ih =>
    obtain ⟨hv, hl⟩ := List.forall_mem_cons.mp h
    rw [runVisits_pack_cons]
    split
    · rw [Function.update_of_ne hv.symm]
    · rw [ih hl, Function.update_of_ne hv.symm]

/-- A keynode is packed if none of the visits before it stops. -/
theorem runVisits_pack (w95 : W95Block) {l : List (Nat × Nat)}
    (hsorted : l.Pairwise fun v w => v.1 < w.1) {v : Nat × Nat} (hv : v ∈ l)
    (hgo : ∀ u ∈ l, u.1 < v.1 → ∀ k, (rgPackKeynode k (w95 u.2)).2 = false)
    (keynodes : KeynodeBlock) :
    runVisits (packAt w95) l keynodes v.1 = (rgPackKeynode (keynodes v.1) (w95 v.2)).1 := by
  induction l generalizing keynodes with
  | nil => cases hv
  | cons u l ih =>
    obtain ⟨hu, hsorted⟩ := List.pairwise_cons.mp hsorted
    rw [runVisits_pack_cons]
    rcases List.mem_cons.mp hv with rfl | hv
    · split
      · rw [Function.update_self]
      · rw [runVisits_pack_other w95 (fun w hw => Nat.ne_of_gt (hu w hw)), Function.update_self]
    · rw [if_neg (by simp [hgo u List.mem_cons_self (hu v hv)]),
        ih hsorted hv (fun w hw => hgo w (List.mem_cons_of_mem _ hw)),
        Function.update_of_ne (Nat.ne_of_gt (hu v hv))]

/-- Behind a visit that stops the block keeps what it held. -/
theorem runVisits_pack_stopped (w95 : W95Block) {l : List (Nat × Nat)}
    (hsorted : l.Pairwise fun v w => v.1 < w.1) {u v : Nat × Nat} (hu : u ∈ l) (huv : u.1 < v.1)
    (hstop : ∀ k, (rgPackKeynode k (w95 u.2)).2 = true) (keynodes : KeynodeBlock) :
    runVisits (packAt w95) l keynodes v.1 = keynodes v.1 := by
  induction l generalizing keynodes with
  | nil => cases hu
  | cons w l ih =>
    obtain ⟨hw, hsorted⟩ := List.pairwise_cons.mp hsorted
    rw [runVisits_pack_cons]
    rcases List.mem_cons.mp hu with rfl | hu
    · rw [if_pos (hstop _), Function.update_of_ne (Nat.ne_of_gt huv)]
    · have hwv : v.1 ≠ w.1 := Nat.ne_of_gt (Nat.lt_trans (hw u hu) huv)
      split
      · rw [Function.update_of_ne hwv]
      · rw [ih hsorted hu, Function.update_of_ne hwv]

/-! ## One block -/

theorem unpackBlock_eq (size block : Nat) (keynodes : KeynodeBlock) (w95 : W95Block) :
    unpackBlock size block keynodes w95 =
      runVisits (unpackAt keynodes) (blockVisits (block * 28672) (fileBlockSize size block)) w95 :=
  rgProcessKeynodeBlock_eq _ _ _ _

theorem packBlock_eq (size block : Nat) (w95 : W95Block) (keynodes : KeynodeBlock) :
    packBlock size block w95 keynodes =
      runVisits (packAt w95) (blockVisits (block * 28672) (min 28672 (size - block * 28672)))
        keynodes :=
  rgProcessKeynodeBlock_eq _ _ _ _

/-- A slot in front of one that is reached is reached. -/
theorem Reached.before {size i j : Nat} (h : Reached size i) (hslot : Slot size i)
    (hj : Slot size j) (hlt : j < i) : Reached size j := by
  obtain ⟨hoffset, hindex⟩ := hslot.slotOffset
  obtain ⟨hoffsetj, hindexj⟩ := hj.slotOffset
  have hgap : rgIndexToOffset j + sizeofW95Keynode ≤ rgIndexToOffset i :=
    hoffsetj.gap hoffset (by omega)
  have hin := hslot.inside
  unfold sizeofW95Keynode at hgap hin
  unfold Reached at h ⊢
  clear hslot hj hindex hindexj hoffset hoffsetj
  generalize rgIndexToOffset i = o at *
  generalize rgIndexToOffset j = p at *
  omega

section Block

variable {size block i : Nat} (hslot : Slot size i) (hreached : Reached size i)
  (hblock : blockNumber i = block)

include hslot hblock in
theorem block_lt : block * 28672 < 0xFFFFFFFF := by
  have hlt := hslot.lt
  unfold blockNumber keynodesPerBlock at hblock
  omega

include hslot hreached hblock in
/-- Each slot of the block is written. -/
theorem unpackBlock_slot (keynodes : KeynodeBlock) (w95 : W95Block) :
    unpackBlock size block keynodes w95 (rgIndexToOffset i) =
      (rgUnpackKeynode (keynodes (indexInBlock i)) (w95 (rgIndexToOffset i))).1 := by
  have hsize : BlockSize size block (fileBlockSize size block) := .inl rfl
  obtain ⟨-, hsorted⟩ := blockVisits_spec (block_lt hslot hblock) hsize.le
  rw [unpackBlock_eq]
  exact runVisits_unpack keynodes (hsorted.imp And.left)
    (slot_visited hslot hreached hblock hsize) w95

include hslot hreached hblock in
theorem packBlock_restores {keynodes : KeynodeBlock}
    (hgo : ∀ j, Slot size j → blockNumber j = block → j < i →
      (keynodes (indexInBlock j)).stops = false) (w95 : W95Block) (target : KeynodeBlock) :
    Restored (keynodes (indexInBlock i))
      (packBlock size block (unpackBlock size block keynodes w95) target (indexInBlock i)) := by
  have hsize : BlockSize size block (min 28672 (size - block * 28672)) := .inr rfl
  obtain ⟨-, hsorted⟩ := blockVisits_spec (block_lt hslot hblock) hsize.le
  rw [packBlock_eq, runVisits_pack _ (hsorted.imp And.right)
    (slot_visited hslot hreached hblock hsize)]
  · rw [unpackBlock_slot hslot hreached hblock]
    exact (pack_unpack _ _ _).1
  · intro u hu hlt k
    obtain ⟨j, hj, hjblock, hji, rfl⟩ := visit_before hslot hblock hsize hu hlt
    rw [unpackBlock_slot hj (hreached.before hslot hj hji) hjblock, (pack_unpack _ _ _).2]
    exact hgo j hj hjblock hji

include hslot hreached hblock in
theorem packBlock_keeps {keynodes : KeynodeBlock} {j : Nat} (hj : Slot size j)
    (hjblock : blockNumber j = block) (hlt : j < i)
    (hstop : (keynodes (indexInBlock j)).stops = true) (w95 : W95Block) (target : KeynodeBlock) :
    packBlock size block (unpackBlock size block keynodes w95) target (indexInBlock i) =
      target (indexInBlock i) := by
  have hsize : BlockSize size block (min 28672 (size - block * 28672)) := .inr rfl
  obtain ⟨-, hsorted⟩ := blockVisits_spec (block_lt hslot hblock) hsize.le
  have hjreached := hreached.before hslot hj hlt
  have hplace : indexInBlock j < indexInBlock i := by
    unfold blockNumber indexInBlock keynodesPerBlock at *
    omega
  rw [packBlock_eq]
  refine runVisits_pack_stopped (v := (indexInBlock i, rgIndexToOffset i)) _
    (hsorted.imp And.right) (slot_visited hj hjreached hjblock hsize) hplace (fun k => ?_) target
  rw [unpackBlock_slot hj hjreached hjblock, (pack_unpack _ _ _).2]
  exact hstop

include hslot hreached hblock in
/-- A slot comes back if and only if no free record in front of it in the block stops the
reading. -/
theorem packBlock_restores_iff (keynodes : KeynodeBlock) :
    (∀ w95 target, Restored (keynodes (indexInBlock i))
      (packBlock size block (unpackBlock size block keynodes w95) target (indexInBlock i))) ↔
    ∀ j, Slot size j → blockNumber j = block → j < i →
      (keynodes (indexInBlock j)).stops = false := by
  refine ⟨fun h j hj hjblock hlt => ?_, fun h => packBlock_restores hslot hreached hblock h⟩
  rw [← Bool.not_eq_true]
  intro hstop
  -- A flag that packing never sets shows that the slot was left alone.
  have hkept := (h (fun _ => ⟨0, 0, 0, 0, 0, 0, 0⟩) fun _ => ⟨0, 2, 0, 0, 0, 0, 0⟩).flags
  rw [packBlock_keeps hslot hreached hblock hj hjblock hlt hstop, KEYNODE.flags_eq] at hkept
  split at hkept
  · exact absurd hkept (by decide)
  · exact absurd hkept (by decide)

end Block

/-! ## The table of a hive -/

/-- What the conversion makes of the slots of a table: the offset of each is behind the header,
from the third page on inside of one page, and gives the index back; slots do not overlap. -/
structure Converts (slots : List Nat) (curTotalKnSize : Nat) : Prop where
  slot : ∀ i ∈ slots, Slot curTotalKnSize i ∧ Reached curTotalKnSize i
  header : ∀ i ∈ slots, sizeofKeynodeHeader ≤ rgIndexToOffset i
  in_page : ∀ i ∈ slots, 2 * pageSize ≤ rgIndexToOffset i →
    rgIndexToOffset i / pageSize = (rgIndexToOffset i + sizeofW95Keynode - 1) / pageSize
  index : ∀ i ∈ slots, rgOffsetToIndex (rgIndexToOffset i) = i
  disjoint : ∀ i ∈ slots, ∀ j ∈ slots, i < j →
    rgIndexToOffset i + sizeofW95Keynode ≤ rgIndexToOffset j

theorem Inv.converts {fi : FileInfo} {used chain : List Nat} (h : Inv fi used chain)
    (hwin95 : fi.version20 = false) : Converts used fi.curTotalKnSize := by
  have htable := h.table
  have hvalid := h.used_valid
  rw [hwin95] at htable hvalid
  have hslot : ∀ i ∈ used, Slot fi.curTotalKnSize i ∧ Reached fi.curTotalKnSize i := fun i hi =>
    (hvalid i hi).1.reached htable (hvalid i hi).2
  have hoffset : ∀ i ∈ used, SlotOffset (rgIndexToOffset i) := fun i hi =>
    (hslot i hi).1.slotOffset.1
  refine ⟨hslot, fun i hi => ?_, fun i hi hpage => ?_, fun i hi => ?_, fun i hi j hj hij => ?_⟩
  · have h32 := hoffset i hi
    unfold SlotOffset at h32
    unfold sizeofKeynodeHeader
    generalize rgIndexToOffset i = o at *
    omega
  · have h8192 := hoffset i hi
    unfold SlotOffset at h8192
    unfold pageSize at hpage ⊢
    unfold sizeofW95Keynode
    generalize rgIndexToOffset i = o at *
    omega
  · exact rgOffsetToIndex_rgIndexToOffset (hvalid i hi).2
  · have hgap := (hvalid i hi).1.disjoint (hvalid j hj).1 (hvalid i hi).2 (hvalid j hj).2 hij
    rw [slotStart_false, slotStart_false] at hgap
    exact hgap

/-- The keynodes that are handed out have offsets of their own, and a block through the file
keeps each slot in front of the first large free record, whatever the size of the table. -/
theorem keynode_conversion {version20 : Bool} {keynodes : Nat → Keynode} {env : AllocEnv}
    {fi : FileInfo} {calls : List Call} {h : Hive}
    (hnew : rgCreateFileInfoNew version20 keynodes env = .ok fi)
    (hrun : Run Step ⟨fi, [fi.rootIndex]⟩ calls h) (hwin95 : h.fi.version20 = false) :
    Converts h.used h.fi.curTotalKnSize ∧
    ∀ (size i : Nat), Slot size i → Reached size i → ∀ keynodes : KeynodeBlock,
      (∀ w95, unpackBlock size (blockNumber i) keynodes w95 (rgIndexToOffset i) =
        (rgUnpackKeynode (keynodes (indexInBlock i)) (w95 (rgIndexToOffset i))).1) ∧
      ((∀ w95 target, Restored (keynodes (indexInBlock i))
        (packBlock size (blockNumber i) (unpackBlock size (blockNumber i) keynodes w95) target
          (indexInBlock i))) ↔
        ∀ j, Slot size j → blockNumber j = blockNumber i → j < i →
          (keynodes (indexInBlock j)).stops = false) := by
  obtain ⟨chain, hinv⟩ := hrun.invariant (rgCreateFileInfoNew_ok hnew)
    fun _ _ _ hok hstep => hstep.ok hok
  refine ⟨hinv.converts hwin95, fun size i hslot hreached keynodes => ⟨?_, ?_⟩⟩
  · exact unpackBlock_slot hslot hreached rfl keynodes
  · exact packBlock_restores_iff hslot hreached rfl keynodes

/-- With a root keynode and one more. -/
theorem keynode_conversion_two :
    Converts (allocs newWin95Hive 1).used (allocs newWin95Hive 1).fi.curTotalKnSize := by
  have hgrow : ∀ m < 1, CanGrow (allocs newWin95Hive m).fi ⟨true, none, none⟩ := by
    decide +kernel
  obtain ⟨calls, hrun⟩ := allocs_run 1 hgrow
  have hnew : rgCreateFileInfoNew false (fun _ => ⟨0, false, 0⟩) ⟨true, none, none⟩ =
      .ok newWin95Hive := rfl
  exact (keynode_conversion hnew hrun rfl).1

/-- The first slot of the block is a free record of three keynodes, the others are in use. -/
def largeFirst : KeynodeBlock := fun kn =>
  if kn = 1 then ⟨0xFFFFFF, 0, 0, 0, 84, 0, 0⟩ else ⟨0xFFFFFF, 1, 0xFFFFFF, 0, 0, 0, 0⟩

theorem slot_four : Slot 4064 4 ∧ Reached 4064 4 :=
  ⟨⟨by decide, by decide, by decide, by decide⟩, .inr (.inr (.inl (by decide)))⟩

/-- A keynode in use behind a free record of three keynodes is not restored, and a table of
one slot that ends with it is not written at all. -/
theorem large_free_record :
    (Slot 4064 4 ∧ (largeFirst (indexInBlock 4)).inUse = true ∧
      ¬ ∀ w95 target, Restored (largeFirst (indexInBlock 4))
        (packBlock 4064 (blockNumber 4) (unpackBlock 4064 (blockNumber 4) largeFirst w95) target
          (indexInBlock 4))) ∧
    (Slot 60 1 ∧ blockNumber 1 = 0 ∧ ∀ keynodes w95, unpackBlock 60 0 keynodes w95 = w95) := by
  refine ⟨⟨slot_four.1, rfl, fun h => ?_⟩,
    ⟨by decide, by decide, by decide, by decide⟩, rfl, fun keynodes w95 => ?_⟩
  · have hfree : Slot 4064 1 := ⟨by decide, by decide, by decide, by decide⟩
    have hgo := (packBlock_restores_iff slot_four.1 slot_four.2 rfl largeFirst).mp h 1 hfree rfl
      (by decide)
    exact absurd hgo (by decide)
  · have hvisits : blockVisits (0 * 28672) (fileBlockSize 60 0) = [] := if_pos (by decide)
    rw [unpackBlock_eq, hvisits, runVisits]

end SdkTools.Registry
