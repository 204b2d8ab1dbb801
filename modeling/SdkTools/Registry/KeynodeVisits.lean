import SdkTools.Registry.KeynodeBlocks

/-!
# The walk over a keynode block

The places that `RgProcessKeynodeBlock` comes to: exactly the slots of the block, in order.
-/

namespace SdkTools.Registry

set_option autoImplicit false

section Walk

variable {σ : Type} (proc : Nat → Nat → σ → σ × Bool)

/-- The places of a walk that is not stopped, with the offsets. -/
def visits (stopOffset curOffset lpKeynode : Nat) : List (Nat × Nat) :=
  if (curOffset < stopOffset ∧ curOffset / pageSize = 0) ∨
      curOffset / pageSize = (curOffset + sizeofW95Keynode) / pageSize then
    (lpKeynode, curOffset) :: visits stopOffset (curOffset + sizeofW95Keynode) (lpKeynode + 1)
  else
    let nextPage := curOffset + (pageSize - curOffset % pageSize)
    if nextPage ≥ stopOffset then []
    else visits stopOffset nextPage (indexInBlock (rgOffsetToIndex nextPage))
termination_by (stopOffset - curOffset, pageSize - curOffset % pageSize)
decreasing_by
  · simp only [sizeofW95Keynode, pageSize, Prod.lex_def] at *
    omega
  · simp only [pageSize, Prod.lex_def] at *
    omega

/-- The walk over given places. -/
def runVisits : List (Nat × Nat) → σ → σ
  | [], s => s
  | v :: l, s =>
    let r := proc v.1 v.2 s
    if r.2 then r.1 else runVisits l r.1

theorem processFrom_eq (stopOffset curOffset lpKeynode : Nat) (s : σ) :
    processFrom proc stopOffset curOffset lpKeynode s =
      runVisits proc (visits stopOffset curOffset lpKeynode) s := by
  induction curOffset, lpKeynode using visits.induct stopOffset generalizing s with
  | case1 cur kn h ih =>
    rw [processFrom, visits, if_pos h, if_pos h, runVisits]
    simp only [ih]
  | case2 cur kn h nextPage hstop =>
    rw [processFrom, visits, if_neg h, if_neg h]
    simp only [nextPage, ge_iff_le] at hstop
    simp [hstop, runVisits]
  | case3 cur kn h nextPage hstop ih =>
    rw [processFrom, visits, if_neg h, if_neg h]
    simp only [nextPage] at hstop ih
    simp only [if_neg hstop, ih]

end Walk

/-- Where a keynode of an uncompacted table can start. -/
def SlotOffset (offset : Nat) : Prop :=
  (32 ≤ offset ∧ offset ≤ 8152 ∧ offset % 28 = 4) ∨
    (8192 ≤ offset ∧ offset % 4096 % 28 = 0 ∧ offset % 4096 ≤ 4060)

/-- Where the walk can be: at a slot or behind the last one of a page. -/
def WalkOffset (offset : Nat) : Prop :=
  (32 ≤ offset ∧ offset ≤ 8180 ∧ offset % 28 = 4) ∨
    (8192 ≤ offset ∧ offset % 4096 % 28 = 0 ∧ offset % 4096 ≤ 4088)

theorem SlotOffset.walk {offset : Nat} (h : SlotOffset offset) : WalkOffset offset := by
  unfold SlotOffset at h
  unfold WalkOffset
  omega

/-- The test of the inner loop. -/
def Goes (stopOffset offset : Nat) : Prop :=
  (offset < stopOffset ∧ offset / pageSize = 0) ∨
    offset / pageSize = (offset + sizeofW95Keynode) / pageSize

theorem Goes.slot {stop offset : Nat} (h : Goes stop offset) (hwalk : WalkOffset offset) :
    SlotOffset offset := by
  unfold Goes sizeofW95Keynode pageSize at h
  rcases hwalk with ⟨hlo, hhi, hmod⟩ | ⟨hlo, hmod, hhi⟩
  · refine .inl ⟨hlo, Nat.le_of_not_lt fun hlt => ?_, hmod⟩
    have hlast : offset = 8180 := by omega
    rw [hlast] at h
    omega
  · refine .inr ⟨hlo, hmod, Nat.le_of_not_lt fun hlt => ?_⟩
    have hlast : offset % 4096 = 4088 := by omega
    clear hmod hhi hlt
    omega

theorem WalkOffset.next {offset : Nat} (h : SlotOffset offset) :
    WalkOffset (offset + sizeofW95Keynode) := by
  unfold SlotOffset at h
  unfold WalkOffset sizeofW95Keynode
  rcases h with h | ⟨hlo, hmod, hle⟩
  · omega
  · have hpage : (offset + 28) % 4096 = offset % 4096 + 28 := by omega
    rw [hpage, Nat.add_mod_right]
    omega

theorem nextPage_aligned {stop offset : Nat} (hgoes : ¬ Goes stop offset)
    (hnext : ¬ offset + (pageSize - offset % pageSize) ≥ stop) :
    8192 ≤ offset + (pageSize - offset % pageSize) ∧
      (offset + (pageSize - offset % pageSize)) % 4096 = 0 := by
  unfold Goes sizeofW95Keynode at hgoes
  unfold pageSize at hgoes hnext ⊢
  omega

theorem SlotOffset.gap {cur offset : Nat} (hcur : SlotOffset cur) (hoffset : SlotOffset offset)
    (hlt : cur < offset) : cur + sizeofW95Keynode ≤ offset := by
  unfold SlotOffset at hcur hoffset
  unfold sizeofW95Keynode
  rcases hcur with hcur | hcur
  · omega
  · have hdiv : cur / 4096 ≤ offset / 4096 := Nat.div_le_div_right (Nat.le_of_lt hlt)
    rcases Nat.lt_or_eq_of_le hdiv with hpage | hpage <;> omega

/-- Where the walk leaves a page, the slots that are left are in the next ones. -/
theorem SlotOffset.beyond_page {stop cur offset : Nat} (hwalk : WalkOffset cur)
    (hgoes : ¬ Goes stop cur) (hslot : SlotOffset offset) (hle : cur ≤ offset)
    (hbound : offset < stop ∨ offset + 28 < 4096 ∨ 4096 ≤ offset ∧ offset / 4096 * 4096 < stop) :
    cur + (pageSize - cur % pageSize) ≤ offset := by
  unfold Goes sizeofW95Keynode pageSize at hgoes
  unfold WalkOffset at hwalk
  unfold SlotOffset at hslot
  unfold pageSize
  rcases Nat.lt_or_ge cur 8192 with hlow | hhigh
  · rcases Nat.lt_or_ge cur 4096 with hfirst | hsecond
    · have hcur : cur = 4092 := by omega
      omega
    · have hcur : cur = 8180 := by omega
      omega
  · have hcur : cur % 4096 = 4088 := by omega
    have hdiv : cur / 4096 ≤ offset / 4096 := Nat.div_le_div_right hle
    rcases Nat.lt_or_eq_of_le hdiv with hpage | hpage <;> omega

/-- Each visit is at a slot, at its place in the block, and the visits are in order. -/
theorem visits_spec {stop cur kn : Nat} (base : Nat)
    (hlt : stop ≤ (base + keynodesPerBlock) * sizeofW95Keynode)
    (hbase : base % keynodesPerBlock = 0) (hcur : base * sizeofW95Keynode ≤ cur)
    (hwalk : WalkOffset cur) (hkn : kn + base = cur / sizeofW95Keynode) :
    (∀ v ∈ visits stop cur kn, cur ≤ v.2 ∧ SlotOffset v.2 ∧
      v.1 + base = v.2 / sizeofW95Keynode) ∧
    (visits stop cur kn).Pairwise fun v w => v.2 < w.2 := by
  induction cur, kn using visits.induct stop with
  | case1 cur kn h ih =>
    rw [visits, if_pos h]
    have hslot := Goes.slot h hwalk
    have hkn' : kn + 1 + base = (cur + sizeofW95Keynode) / sizeofW95Keynode := by
      rw [Nat.add_div_right _ (by decide : 0 < sizeofW95Keynode), ← hkn]
      omega
    obtain ⟨hmem, hsorted⟩ := ih (Nat.le_trans hcur (Nat.le_add_right _ _))
      (WalkOffset.next hslot) hkn'
    refine ⟨List.forall_mem_cons.mpr ⟨⟨Nat.le_refl _, hslot, hkn⟩, fun v hv => ?_⟩,
      List.pairwise_cons.mpr ⟨fun v hv => ?_, hsorted⟩⟩
    · obtain ⟨hle, hrest⟩ := hmem v hv
      exact ⟨Nat.le_trans (Nat.le_add_right _ _) hle, hrest⟩
    · exact Nat.lt_of_lt_of_le (Nat.lt_add_of_pos_right (by decide)) (hmem v hv).1
  | case2 cur kn h nextPage hnext =>
    rw [visits, if_neg h]
    simp only [nextPage, ge_iff_le] at hnext
    simp [hnext]
  | case3 cur kn h nextPage hnext ih =>
    rw [visits, if_neg h]
    simp only [nextPage] at hnext ih
    simp only [if_neg hnext]
    obtain ⟨hpage, haligned⟩ := nextPage_aligned h hnext
    have hwalk' : WalkOffset (cur + (pageSize - cur % pageSize)) := by
      unfold WalkOffset
      omega
    have hkn' : indexInBlock (rgOffsetToIndex (cur + (pageSize - cur % pageSize))) + base =
        (cur + (pageSize - cur % pageSize)) / sizeofW95Keynode := by
      have hne : cur + (pageSize - cur % pageSize) ≠ REG_NULL := by
        unfold REG_NULL
        omega
      rw [rgOffsetToIndex, if_neg hne, indexInBlock]
      unfold keynodesPerBlock sizeofW95Keynode at *
      omega
    obtain ⟨hmem, hsorted⟩ := ih (by omega) hwalk' hkn'
    refine ⟨fun v hv => ?_, hsorted⟩
    obtain ⟨hle, hrest⟩ := hmem v hv
    exact ⟨by omega, hrest⟩

/-- A slot that begins before the bound, or in a page that does, is visited. -/
theorem mem_visits {stop cur kn offset : Nat} (hwalk : WalkOffset cur)
    (hslot : SlotOffset offset) (hle : cur ≤ offset)
    (hbound : offset < stop ∨ offset + 28 < 4096 ∨ 4096 ≤ offset ∧ offset / 4096 * 4096 < stop) :
    ∃ v ∈ visits stop cur kn, v.2 = offset := by
  induction cur, kn using visits.induct stop with
  | case1 cur kn h ih =>
    rw [visits, if_pos h]
    rcases Nat.eq_or_lt_of_le hle with rfl | hlt
    · exact ⟨_, List.mem_cons_self, rfl⟩
    · have hcur := Goes.slot h hwalk
      obtain ⟨v, hv, heq⟩ := ih (WalkOffset.next hcur) (hcur.gap hslot hlt)
      exact ⟨v, List.mem_cons_of_mem _ hv, heq⟩
  | case2 cur kn h nextPage hnext =>
    have hbeyond := SlotOffset.beyond_page hwalk h hslot hle hbound
    simp only [nextPage] at hnext
    unfold pageSize at hbeyond hnext
    omega
  | case3 cur kn h nextPage hnext ih =>
    rw [visits, if_neg h]
    simp only [nextPage] at hnext ih
    simp only [if_neg hnext]
    obtain ⟨hpage, haligned⟩ := nextPage_aligned h hnext
    refine ih ?_ (SlotOffset.beyond_page hwalk h hslot hle hbound)
    unfold WalkOffset
    omega

/-! ## The walk over a block -/

def blockVisits (startOffset blockSize : Nat) : List (Nat × Nat) :=
  if skipHeader startOffset ≥ startOffset + blockSize then []
  else
    visits (startOffset + blockSize) (skipHeader startOffset)
      (indexInBlock (rgOffsetToIndex (skipHeader startOffset)))

theorem rgProcessKeynodeBlock_eq {σ : Type} (startOffset blockSize : Nat)
    (proc : Nat → Nat → σ → σ × Bool) (s : σ) :
    rgProcessKeynodeBlock startOffset blockSize proc s =
      runVisits proc (blockVisits startOffset blockSize) s := by
  unfold rgProcessKeynodeBlock blockVisits
  split
  · rfl
  · exact processFrom_eq proc _ _ _ s

theorem skipHeader_spec {block : Nat} (h : block * 28672 < 0xFFFFFFFF) :
    block * 28672 ≤ skipHeader (block * 28672) ∧ WalkOffset (skipHeader (block * 28672)) ∧
      indexInBlock (rgOffsetToIndex (skipHeader (block * 28672))) + block * 1024 =
        skipHeader (block * 28672) / 28 := by
  rcases Nat.eq_zero_or_pos block with rfl | hpos
  · exact ⟨Nat.zero_le _, .inl ⟨Nat.le_refl 32, by decide, rfl⟩, rfl⟩
  · have hskip : skipHeader (block * 28672) = block * 28672 := by
      unfold skipHeader
      rw [if_neg (by omega), Nat.add_zero]
    have hindex : rgOffsetToIndex (block * 28672) = block * 1024 := by
      rw [rgOffsetToIndex, if_neg (by unfold REG_NULL; omega)]
      unfold sizeofW95Keynode
      omega
    rw [hskip, hindex]
    unfold WalkOffset indexInBlock keynodesPerBlock
    omega

theorem blockVisits_spec {block blockSize : Nat} (h : block * 28672 < 0xFFFFFFFF)
    (hsize : blockSize ≤ 28672) :
    (∀ v ∈ blockVisits (block * 28672) blockSize, SlotOffset v.2 ∧
      v.1 + block * 1024 = v.2 / 28) ∧
    (blockVisits (block * 28672) blockSize).Pairwise fun v w => v.2 < w.2 ∧ v.1 < w.1 := by
  have hlt : block * 28672 + blockSize ≤ (block * 1024 + keynodesPerBlock) * sizeofW95Keynode := by
    unfold keynodesPerBlock sizeofW95Keynode
    omega
  have hstart : block * 1024 * sizeofW95Keynode = block * 28672 := by
    unfold sizeofW95Keynode
    omega
  obtain ⟨hle, hwalk, hkn⟩ := skipHeader_spec h
  unfold blockVisits
  split
  · exact ⟨fun v hv => absurd hv List.not_mem_nil, List.Pairwise.nil⟩
  · have hcur : block * 1024 * sizeofW95Keynode ≤ skipHeader (block * 28672) :=
      Nat.le_trans (Nat.le_of_eq hstart) hle
    have hbase : block * 1024 % keynodesPerBlock = 0 := by
      unfold keynodesPerBlock
      omega
    obtain ⟨hmem, hsorted⟩ := visits_spec (block * 1024) hlt hbase hcur hwalk hkn
    refine ⟨fun v hv => (hmem v hv).2, hsorted.imp_of_mem fun {v w} hv hw hlt => ⟨hlt, ?_⟩⟩
    obtain ⟨-, hslotv, hv⟩ := hmem v hv
    obtain ⟨-, hslotw, hw⟩ := hmem w hw
    have hgap := hslotv.gap hslotw hlt
    unfold sizeofW95Keynode at hgap hv hw
    omega

/-- The sizes with which a block is written and read. -/
def BlockSize (curTotalKnSize block blockSize : Nat) : Prop :=
  blockSize = fileBlockSize curTotalKnSize block ∨
    blockSize = min 28672 (curTotalKnSize - block * 28672)

theorem BlockSize.le {size block blockSize : Nat} (h : BlockSize size block blockSize) :
    blockSize ≤ 28672 := by
  rcases h with rfl | rfl
  · simp only [fileBlockSize, sizeofW95KeynodeBlock, keynodesPerBlock, sizeofW95Keynode,
      sizeofKeynodeHeader]
    split_ifs <;> omega
  · exact Nat.min_le_left _ _

/-- The index has a slot that lies in a Win95 table of the size. -/
structure Slot (size index : Nat) : Prop where
  pos : 1 ≤ index
  lt : index < 0xFFFFFF
  row : index < 292 ∨ (index * 28 + 27) % 4096 < 4088
  inside : rgIndexToOffset index + sizeofW95Keynode ≤ size

theorem slotStart_false (index : Nat) : slotStart false index = rgIndexToOffset index :=
  if_neg Bool.false_ne_true

theorem rgIndexToOffset_eq {index : Nat} (h : index < 0xFFFFFF) :
    rgIndexToOffset index =
      if index < 292 then index * 28 + 4
      else (index * 28 + 27) / 4096 * 4096 + (index * 28 + 27) % 4096 / 28 * 28 := by
  rw [← slotStart_false, slotStart_win95 h]

theorem Slot.slotOffset {size i : Nat} (h : Slot size i) :
    SlotOffset (rgIndexToOffset i) ∧ rgIndexToOffset i / 28 = i := by
  obtain ⟨hpos, hlt, hrow, -⟩ := h
  rw [rgIndexToOffset_eq hlt]
  unfold SlotOffset
  by_cases hlow : i < 292
  · rw [if_pos hlow]
    omega
  · rw [if_neg hlow]
    replace hrow : (i * 28 + 27) % 4096 < 4088 := hrow.resolve_left hlow
    generalize hx : i * 28 + 27 = x at hrow ⊢
    have hdiv : (x / 4096 * 4096 + x % 4096 / 28 * 28) % 4096 = x % 4096 / 28 * 28 := by omega
    rw [hdiv]
    omega

/-- `RgGetKnBlockIOInfo` counts the first block from behind the header and the walk counts it
from the start of the table, so the last block ends one header early. A slot is still reached
where the walk runs on to the end of its page. -/
def Reached (size index : Nat) : Prop :=
  28672 ≤ size ∨ 28672 ≤ rgIndexToOffset index ∨
    (rgIndexToOffset index + 28 < 4096 ∧ 64 < size) ∨
    (4096 ≤ rgIndexToOffset index ∧ rgIndexToOffset index / 4096 * 4096 + 32 < size) ∨
    rgIndexToOffset index + 32 < size

/-- In the sizes that the table takes on no slot is lost. -/
theorem ValidSlot.reached {size i : Nat} (htable : TableSize false size)
    (h : ValidSlot false size i) (hlt : i < 0xFFFFFF) : Slot size i ∧ Reached size i := by
  have hin := h.inside hlt
  have hsize : slotSize false = 28 := rfl
  rw [slotStart_false, hsize] at hin
  obtain ⟨-, htable⟩ := htable
  rw [if_neg Bool.false_ne_true] at htable
  obtain ⟨-, h⟩ := h
  rw [if_neg Bool.false_ne_true] at h
  have hslot : Slot size i := by
    refine ⟨h.1, hlt, ?_, hin⟩
    by_cases hlow : i < 292
    · exact .inl hlow
    · rw [if_neg hlow] at h
      exact .inr h.2.2
  refine ⟨hslot, ?_⟩
  obtain ⟨hoffset, -⟩ := hslot.slotOffset
  unfold SlotOffset at hoffset
  unfold Reached
  clear h hslot
  generalize rgIndexToOffset i = o at *
  have hpage : o / 4096 * 4096 ≤ o := Nat.div_mul_le_self o 4096
  rcases htable with rfl | rfl | ⟨hlarge, hpages⟩
  · omega
  · omega
  · rcases Nat.lt_or_ge o 8192 with hlow | hhigh
    · omega
    · have hlt : o / 4096 < size / 4096 := by omega
      omega

/-- A slot of the block that is reached is visited when the block is written and when it is
read. -/
theorem slot_visited {size block blockSize i : Nat} (hslot : Slot size i)
    (hreached : Reached size i) (hblock : blockNumber i = block)
    (hsize : BlockSize size block blockSize) :
    (indexInBlock i, rgIndexToOffset i) ∈ blockVisits (block * 28672) blockSize := by
  obtain ⟨hoffset, hindex⟩ := hslot.slotOffset
  have hlt := hslot.lt
  have hin := hslot.inside
  unfold sizeofW95Keynode at hin
  unfold blockNumber keynodesPerBlock at hblock
  have hb : block * 28672 ≤ rgIndexToOffset i ∧ rgIndexToOffset i < block * 28672 + 28672 := by
    omega
  have hstop : (block = 0 → blockSize = 28640 ∧ 28672 ≤ size ∨ blockSize + 32 = size ∨
      blockSize = size ∨ blockSize = 28672) ∧
      (0 < block → blockSize = 28672 ∨ block * 28672 + blockSize = size) := by
    rcases hsize with rfl | rfl
    · simp only [fileBlockSize, sizeofW95KeynodeBlock, keynodesPerBlock, sizeofW95Keynode,
        sizeofKeynodeHeader]
      unfold SlotOffset at hoffset
      split_ifs <;> omega
    · omega
  have hle := hsize.le
  obtain ⟨hspec, -⟩ := @blockVisits_spec block blockSize (by omega) hle
  have hfirst : skipHeader (block * 28672) ≤ rgIndexToOffset i ∧
      skipHeader (block * 28672) < block * 28672 + blockSize := by
    unfold SlotOffset at hoffset
    unfold Reached at hreached
    rcases Nat.eq_zero_or_pos block with rfl | hpos
    · have hskip : skipHeader (0 * 28672) = 32 := rfl
      rw [hskip]
      generalize rgIndexToOffset i = o at *
      omega
    · have hskip : skipHeader (block * 28672) = block * 28672 := by
        rw [skipHeader, if_neg (by omega), Nat.add_zero]
      rw [hskip]
      generalize rgIndexToOffset i = o at *
      omega
  obtain ⟨hcur, hwalk, hkn⟩ := @skipHeader_spec block (by omega)
  have hbound : rgIndexToOffset i < block * 28672 + blockSize ∨ rgIndexToOffset i + 28 < 4096 ∨
      4096 ≤ rgIndexToOffset i ∧
        rgIndexToOffset i / 4096 * 4096 < block * 28672 + blockSize := by
    unfold SlotOffset at hoffset
    unfold Reached at hreached
    clear hcur hwalk hkn hfirst hspec
    generalize rgIndexToOffset i = o at *
    omega
  obtain ⟨v, hv, heq⟩ : ∃ v ∈ blockVisits (block * 28672) blockSize,
      v.2 = rgIndexToOffset i := by
    unfold blockVisits
    rw [if_neg (Nat.not_le.mpr hfirst.2)]
    exact mem_visits hwalk hoffset hfirst.1 hbound
  obtain ⟨-, hplace⟩ := hspec v hv
  have hv1 : v.1 = indexInBlock i := by
    unfold indexInBlock keynodesPerBlock
    rw [heq, hindex] at hplace
    omega
  rw [← hv1, ← heq]
  exact hv

/-- The end of the row of 28 bytes from which the offset is found again. -/
theorem SlotOffset.row {offset : Nat} (h : SlotOffset offset) :
    offset ≤ offset / 28 * 28 + 27 ∧ offset / 28 * 28 + 27 < offset + 28 ∧
      (8192 ≤ offset → (offset / 28 * 28 + 27) / 4096 = offset / 4096 ∧
        (offset / 28 * 28 + 27) % 4096 / 28 = offset % 4096 / 28) := by
  unfold SlotOffset at h
  have hz : offset ≤ offset / 28 * 28 + 27 ∧ offset / 28 * 28 + 27 < offset + 28 := by omega
  generalize offset / 28 * 28 + 27 = z at *
  refine ⟨hz.1, hz.2, fun hhigh => ?_⟩
  have hpage : z / 4096 = offset / 4096 := by omega
  have hmod : z % 4096 = offset % 4096 + (z - offset) := by omega
  refine ⟨hpage, ?_⟩
  rw [hmod]
  omega

/-- What is visited before a slot is a slot of the block. -/
theorem visit_before {size block blockSize i : Nat} (hslot : Slot size i)
    (hblock : blockNumber i = block) (hsize : BlockSize size block blockSize)
    {v : Nat × Nat} (hv : v ∈ blockVisits (block * 28672) blockSize)
    (hbefore : v.1 < indexInBlock i) :
    ∃ j, Slot size j ∧ blockNumber j = block ∧ j < i ∧
      v = (indexInBlock j, rgIndexToOffset j) := by
  obtain ⟨hoffset, hindex⟩ := hslot.slotOffset
  have hlt := hslot.lt
  have hin := hslot.inside
  unfold blockNumber indexInBlock keynodesPerBlock at *
  obtain ⟨hspec, -⟩ := @blockVisits_spec block blockSize (by omega) hsize.le
  obtain ⟨hvslot, hplace⟩ := hspec v hv
  have hji : v.2 / 28 < i := by omega
  have hrow := hvslot.row
  have hvi : v.2 + sizeofW95Keynode ≤ rgIndexToOffset i := hvslot.gap hoffset (by omega)
  have hoff : rgIndexToOffset (v.2 / 28) = v.2 := by
    rw [rgIndexToOffset_eq (by omega)]
    unfold SlotOffset at hvslot
    clear hspec hplace hv hbefore hoffset hindex hsize hslot hblock hin hvi
    generalize hz : v.2 / 28 * 28 + 27 = z at *
    generalize v.2 = x at *
    split
    · omega
    · omega
  refine ⟨v.2 / 28, ⟨?_, by omega, ?_, ?_⟩, by omega, hji, ?_⟩
  · unfold SlotOffset at hvslot
    omega
  · unfold SlotOffset at hvslot
    clear hspec hplace hv hbefore hoffset hindex hsize hslot hblock hin hvi hoff
    generalize hz : v.2 / 28 * 28 + 27 = z at *
    generalize v.2 = x at *
    omega
  · rw [hoff]
    exact Nat.le_trans hvi (Nat.le_trans (Nat.le_add_right _ _) hin)
  · exact Prod.ext (by simp only; omega) hoff.symm

end SdkTools.Registry
