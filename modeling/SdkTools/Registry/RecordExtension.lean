import SdkTools.Registry.FreeChain

/-!
# Extending a key record into a free record behind it
-/

namespace SdkTools.Registry

set_option autoImplicit false

theorem length_freeOffsets (l : List Rec) : ∀ o : Nat, (freeOffsets o l).length ≤ l.length := by
  induction l with
  | nil =>
    intro o
    exact Nat.le_refl _
  | cons r l ih =>
    intro o
    cases r with
    | used a body => exact Nat.le_succ_of_le (ih _)
    | free size => exact Nat.succ_le_succ (ih _)

/-- The other free records lie before and behind the middle of a block that has
one free record there. -/
theorem BlockOk.others {db : Datablock} {pre : List Rec} (mid : List Rec) {post : List Rec}
    {front back : List Nat} {free bytes : Nat}
    (h : BlockOk db (pre ++ (mid ++ post)) (front ++ free :: back)
      (freeOffsets sizeofDatablockHeader (pre ++ (mid ++ post))) bytes)
    (hmid : freeOffsets (sizeofDatablockHeader + total pre) mid = [free]) :
    (front ++ back).Perm (freeOffsets sizeofDatablockHeader pre ++
      freeOffsets (sizeofDatablockHeader + total pre + total mid) post) := by
  have hvisits := h.visits
  rw [freeOffsets_append, freeOffsets_append, hmid] at hvisits
  exact ((List.perm_middle.symm.trans hvisits).trans List.perm_middle).cons_inv

/-- `RgExtendKeyRecord` unlinks or replaces the free record in the list. -/
def Datablock.relinked (db : Datablock) (m : Buffer) (free next freeBytes : Nat) : Datablock :=
  if db.firstFreeOffset = free then
    { db with mem := m, firstFreeOffset := next, freeBytes }
  else
    { db with mem := relink m free next db.blockSize db.firstFreeOffset, freeBytes }

theorem Datablock.relinked_table (db : Datablock) (m : Buffer) (free next freeBytes : Nat) :
    (db.relinked m free next freeBytes).table = db.table := by
  unfold Datablock.relinked
  split
  · rfl
  · rfl

theorem Datablock.relinked_first (db : Datablock) (m : Buffer) (free next freeBytes : Nat) :
    (db.relinked m free next freeBytes).firstFreeIndex = db.firstFreeIndex := by
  unfold Datablock.relinked
  split
  · rfl
  · rfl

theorem Datablock.relinked_max (db : Datablock) (m : Buffer) (free next freeBytes : Nat) :
    (db.relinked m free next freeBytes).maxAllocatedIndex = db.maxAllocatedIndex := by
  unfold Datablock.relinked
  split
  · rfl
  · rfl

/-- Records in the middle of a block change, and so does what is free in them. -/
theorem BlockOk.replaceFree {db : Datablock} {pre : List Rec} (mid mid' : List Rec)
    {post : List Rec} {front back new : List Nat} {free next bytes : Nat} (bytes' : Nat)
    {m : Buffer}
    (h : BlockOk db (pre ++ (mid ++ post)) (front ++ free :: back)
      (freeOffsets sizeofDatablockHeader (pre ++ (mid ++ post))) bytes)
    (hmid : freeOffsets (sizeofDatablockHeader + total pre) mid = [free])
    (hmid' : freeOffsets (sizeofDatablockHeader + total pre) mid' = new)
    (hm : ∀ i, i < sizeofDatablockHeader + total pre ∨
      sizeofDatablockHeader + total pre + total mid ≤ i → m i = db.mem i)
    (htiles : Tiles m (sizeofDatablockHeader + total pre) mid'
      (sizeofDatablockHeader + total pre + total mid))
    (hchain : Chain m next (new ++ back)) (hnext : next < 2 ^ 32) :
    BlockOk (db.relinked m free next bytes') (pre ++ (mid' ++ post)) (front ++ (new ++ back))
      (freeOffsets sizeofDatablockHeader (pre ++ (mid' ++ post))) bytes' := by
  obtain ⟨last, hpath, hlast, -, -⟩ := chain_append.mp h.linked
  subst hlast
  have hend := htiles.end_eq
  have hsplice := h.tiles.splice mid mid' hm htiles
  have hrest := h.others mid hmid
  have hvisits' : (front ++ (new ++ back)).Perm
      (freeOffsets sizeofDatablockHeader (pre ++ (mid' ++ post))) := by
    rw [freeOffsets_append, freeOffsets_append, hmid', ← hend]
    calc (front ++ (new ++ back)).Perm (new ++ (front ++ back)) := List.perm_append_comm_assoc ..
      List.Perm _ (new ++ (freeOffsets sizeofDatablockHeader pre ++
          freeOffsets (sizeofDatablockHeader + total pre + total mid) post)) :=
        hrest.append_left new
      List.Perm _ _ := List.perm_append_comm_assoc ..
  have hpath_m : Path m db.firstFreeOffset front last := by
    refine hpath.congr fun x hx => h.tiles.links mid hm ?_
    exact hrest.mem_iff.mp (List.mem_append_left _ hx)
  have hapart := (h.visits.pairwise_iff Apart.symm).mpr h.tiles.apart
  have hapart' := (hvisits'.pairwise_iff Apart.symm).mpr hsplice.apart
  obtain ⟨hfront, -, hcross⟩ := List.pairwise_append.mp hapart
  obtain ⟨-, -, hcross'⟩ := List.pairwise_append.mp hapart'
  have hnot : last ∉ front := fun hin => (hcross _ hin _ List.mem_cons_self).ne rfl
  unfold Datablock.relinked
  split
  · rename_i hfirst
    refine ⟨h.small, h.aligned, hsplice, ?_, hvisits', rfl⟩
    cases front with
    | nil => exact hchain
    | cons x front =>
      have hhead : db.firstFreeOffset = x := hpath.1
      exact absurd (hfirst.symm.trans hhead ▸ List.mem_cons_self) hnot
  · rename_i hfirst
    have hne : front ≠ [] := by
      intro hnil
      subst hnil
      exact hfirst hpath
    have hfuel : front.length ≤ db.blockSize := by
      have hlen := h.visits.length_eq
      have hoffsets := length_freeOffsets (pre ++ (mid ++ post)) sizeofDatablockHeader
      have hrecords := h.tiles.length_le
      rw [List.length_append] at hlen
      omega
    obtain ⟨x, hx, hrelink, hpath'⟩ := relink_spec hnext hpath_m hne hnot hfront hfuel
    have hx_free := hvisits'.mem_iff.mp (List.mem_append_left _ hx)
    constructor
    · exact h.small
    · exact h.aligned
    · simp only [hrelink]
      exact hsplice.setNext hx_free
    · simp only [hrelink]
      refine chain_append.mpr ⟨next, hpath', hchain.congr fun y hy => ?_⟩
      have hxy := hcross' x hx y hy
      unfold Apart at hxy
      exact dwordAt_setDword_ne (by omega)
    · exact hvisits'
    · rfl

/-- A key record that keeps its place and its address keeps its entry. -/
theorem Indexed.resize {b : Nat} {db : Datablock} {pre post mid : List Rec} {i : Nat}
    {body : List UCHAR} (body' : List UCHAR) (mid' : List Rec)
    (h : Indexed b db (pre ++ (.used (makelong i b) body :: mid ++ post)))
    (hmid : addresses mid = []) (hmid' : addresses mid' = [])
    (htotal : total (.used (makelong i b) body' :: mid') =
      total (.used (makelong i b) body :: mid)) :
    Indexed b db (pre ++ (.used (makelong i b) body' :: mid' ++ post)) ∧
    ∀ a, a ≠ makelong i b →
      bodyOf a (pre ++ (.used (makelong i b) body' :: mid' ++ post)) =
        bodyOf a (pre ++ (.used (makelong i b) body :: mid ++ post)) := by
  have hone : addresses (.used (makelong i b) body :: mid) = [makelong i b] :=
    congrArg (List.cons _) hmid
  have hone' : addresses (.used (makelong i b) body' :: mid') = [makelong i b] :=
    congrArg (List.cons _) hmid'
  have hsame : addresses (pre ++ (.used (makelong i b) body' :: mid' ++ post)) =
      addresses (pre ++ (.used (makelong i b) body :: mid ++ post)) := by
    rw [addresses_append, addresses_append, addresses_append, addresses_append, hone, hone']
  obtain ⟨hpre, -⟩ := h.addressed.not_mem
  have hother : ∀ a, a ≠ makelong i b → a ∉ [makelong i b] := by
    intro a ha hin
    exact ha (List.mem_singleton.mp hin)
  refine ⟨⟨h.number, h.addressed.of_eq hsame, fun j hj => (h.table j hj).trans ?_,
    h.index.of_eq hsame⟩, fun a ha => ?_⟩
  · rw [entryOf, entryOf]
    by_cases hij : j = i
    · subst hij
      rw [List.cons_append, List.cons_append, find_hit hpre, find_hit hpre]
      rfl
    · have hne : makelong j b ≠ makelong i b := fun heq => hij (makelong_inj heq)
      rw [find_splice _ _ htotal (hone ▸ hother _ hne) (hone' ▸ hother _ hne)]
  · exact bodyOf_splice _ _ (hone ▸ hother a ha) (hone' ▸ hother a ha)

/-- What `RgExtendKeyRecord` needs of the record behind a key record. -/
theorem Tiles.behind {m : Buffer} {l : List Rec} {o e : Nat} (h : Tiles m o l e) :
    (o ≥ e ∨ hasIndex m o = true) ∨ ∃ size post, l = .free size :: post := by
  cases l with
  | nil => exact Or.inl (Or.inl (Nat.le_of_eq h.symm))
  | cons r post =>
    cases r with
    | used a body => exact Or.inl (Or.inr h.1.hasIndex_eq)
    | free size => exact Or.inr ⟨size, post, rfl⟩

/-- The free record that is extended into, where it is in the list. -/
theorem BlockOk.behind {db : Datablock} {pre post : List Rec} {chain : List Nat}
    {size bytes : Nat}
    (h : BlockOk db (pre ++ .free size :: post) chain
      (freeOffsets sizeofDatablockHeader (pre ++ .free size :: post)) bytes) :
    ∃ front back, chain = front ++ (sizeofDatablockHeader + total pre) :: back ∧
      Chain db.mem (dwordAt db.mem (sizeofDatablockHeader + total pre + 8)) back := by
  have hmem : sizeofDatablockHeader + total pre ∈ chain := by
    rw [h.visits.mem_iff, freeOffsets_append]
    exact List.mem_append_right _ List.mem_cons_self
  obtain ⟨front, back, hchain⟩ := List.append_of_mem hmem
  have hlinked := h.linked
  rw [hchain] at hlinked
  obtain ⟨last, -, -, -, hback⟩ := chain_append.mp hlinked
  exact ⟨front, back, hchain, hback⟩

/-- A key record and the free record behind it change into a longer key record
and what remains. -/
theorem DbInv.resize {b : Nat} {db : Datablock} {pre post mid' : List Rec} {front back : List Nat}
    {i o size next bytes' : Nat} {body body' : List UCHAR} {m : Buffer}
    (ho : sizeofDatablockHeader + total pre = o)
    (h : DbInv b db (pre ++ (.used (makelong i b) body :: [.free size] ++ post))
      (front ++ (o + (8 + body.length)) :: back))
    (hmid' : addresses mid' = [])
    (hm : ∀ j, j < o ∨
      o + (8 + body.length + size) ≤ j → m j = db.mem j)
    (htiles : Tiles m (o) (.used (makelong i b) body' :: mid')
      (o + (8 + body.length + size)))
    (hchain : Chain m next
      (freeOffsets (o + (8 + body'.length)) mid' ++ back))
    (hnext : next < 2 ^ 32)
    (hbytes : bytes' = freeTotal pre + (freeTotal mid' + freeTotal post)) :
    ∃ l' chain', DbInv b (db.relinked m (o + (8 + body.length)) next bytes') l' chain' ∧
      ∀ a, a ≠ makelong i b → bodyOf a l' =
        bodyOf a (pre ++ (.used (makelong i b) body :: [.free size] ++ post)) := by
  subst ho
  have hmid : total (.used (makelong i b) body :: [.free size]) = 8 + body.length + size := rfl
  have htotal : total (.used (makelong i b) body' :: mid') =
      total (.used (makelong i b) body :: [.free size]) := by
    have hend := htiles.end_eq
    omega
  obtain ⟨hx, hbodies⟩ := h.indexed.resize body' mid' rfl hmid' htotal
  have hb := h.block.replaceFree _ (.used (makelong i b) body' :: mid') bytes' rfl rfl hm htiles
    hchain hnext
  refine ⟨_, _, ⟨hx.number, hb.small, hb.aligned, hb.tiles, hb.linked, hb.visits,
    hb.freeBytes.trans ?_, hx.addressed, ?_, ?_⟩, hbodies⟩
  · rw [hbytes, freeTotal_append, freeTotal_append]
    simp only [freeTotal, List.map_cons, Rec.freeSize, List.sum_cons, Nat.zero_add]
  · rw [db.relinked_table]
    exact hx.table
  · rw [db.relinked_first, db.relinked_max]
    exact hx.index

/-- The memory after a split of the free record behind a key record. -/
def splitMemory (m : Buffer) (keyRecord allocatedSize wanted size next : Nat) : Buffer :=
  setDword (setDword (setDword (setDword m (keyRecord + allocatedSize + wanted + 8) next)
    (keyRecord + allocatedSize + wanted + 4) REG_NULL) (keyRecord + allocatedSize + wanted)
    (size - wanted)) keyRecord (allocatedSize + wanted)

theorem rgExtendKeyRecord_fails {db : Datablock} {length o n : Nat}
    (hsize : dwordAt db.mem o = n)
    (h : (o + n ≥ db.blockSize ∨ hasIndex db.mem (o + n) = true) ∨
      (length + 2 ^ 32 - n) % 2 ^ 32 > dwordAt db.mem (o + n)) :
    (rgExtendKeyRecord db length o).1 = db := by
  unfold rgExtendKeyRecord
  simp only [hsize]
  split
  · rfl
  · rename_i hbad
    rw [if_pos (h.resolve_left hbad)]

theorem rgExtendKeyRecord_error {db db' : Datablock} {length o : Nat} {e : ErrorCode}
    (h : rgExtendKeyRecord db length o = (db', some e)) : db' = db := by
  simp only [rgExtendKeyRecord] at h
  split at h
  · exact (Prod.mk.inj h).1.symm
  · split at h
    · exact (Prod.mk.inj h).1.symm
    · generalize dwordAt db.mem (o + dwordAt db.mem o) = size at h
      split at h
      · exact nomatch (Prod.mk.inj h).2
      · exact nomatch (Prod.mk.inj h).2

theorem rgExtendKeyRecord_split {db : Datablock} {length o n wanted size next : Nat}
    (hsize : dwordAt db.mem o = n)
    (hbad : ¬ (o + n ≥ db.blockSize ∨ hasIndex db.mem (o + n) = true))
    (hwanted : (length + 2 ^ 32 - n) % 2 ^ 32 = wanted) (hfree : dwordAt db.mem (o + n) = size)
    (hle : ¬ wanted > size) (hnext : dwordAt db.mem (o + n + 8) = next)
    (hextra : size - wanted ≥ minimumFreeRecordLength) :
    (rgExtendKeyRecord db length o).1 =
      db.relinked (splitMemory db.mem o n wanted size next) (o + n) (o + n + wanted)
        (db.freeBytes - wanted) := by
  unfold rgExtendKeyRecord
  simp only [hsize, if_neg hbad, hwanted, hfree, if_neg hle, hnext, decide_eq_true hextra, if_true]
  unfold Datablock.relinked splitMemory
  split
  · rfl
  · rfl

theorem rgExtendKeyRecord_whole {db : Datablock} {length o n wanted size next : Nat}
    (hsize : dwordAt db.mem o = n)
    (hbad : ¬ (o + n ≥ db.blockSize ∨ hasIndex db.mem (o + n) = true))
    (hwanted : (length + 2 ^ 32 - n) % 2 ^ 32 = wanted) (hfree : dwordAt db.mem (o + n) = size)
    (hle : ¬ wanted > size) (hnext : dwordAt db.mem (o + n + 8) = next)
    (hextra : ¬ size - wanted ≥ minimumFreeRecordLength) :
    (rgExtendKeyRecord db length o).1 =
      db.relinked (setDword db.mem o (n + size)) (o + n) next (db.freeBytes - size) := by
  unfold rgExtendKeyRecord
  simp only [hsize, if_neg hbad, hwanted, hfree, if_neg hle, hnext, decide_eq_false hextra,
    Bool.false_eq_true, if_false]
  unfold Datablock.relinked
  split
  · rfl
  · rfl

section

variable {b : Nat} {db : Datablock} {pre post : List Rec} {front back : List Nat}
  {i o size wanted next : Nat} {body : List UCHAR}

/-- The rest of the free list is as it was. -/
theorem DbInv.chainBack {m : Buffer} (ho : sizeofDatablockHeader + total pre = o)
    (h : DbInv b db (pre ++ (.used (makelong i b) body :: [.free size] ++ post))
      (front ++ (o + (8 + body.length)) :: back)) (hback : Chain db.mem next back)
    (hm : ∀ j, j < o ∨ o + (8 + body.length + size) ≤ j → m j = db.mem j) : Chain m next back := by
  subst ho
  have hothers := h.block.others (.used (makelong i b) body :: [.free size]) rfl
  refine hback.congr fun x hx => h.tiles.links (.used (makelong i b) body :: [.free size]) hm ?_
  exact hothers.mem_iff.mp (List.mem_append_right front hx)

theorem freeTotal_pair (pre post : List Rec) (a size : Nat) (body : List UCHAR) :
    freeTotal (pre ++ (.used a body :: [.free size] ++ post)) =
      freeTotal pre + (size + freeTotal post) := by
  rw [freeTotal_append]
  simp only [freeTotal, List.cons_append, List.nil_append, List.map_cons, Rec.freeSize,
    List.sum_cons, Nat.zero_add]

/-- The block ends behind the two records. -/
theorem DbInv.pair_le (ho : sizeofDatablockHeader + total pre = o)
    (h : DbInv b db (pre ++ (.used (makelong i b) body :: [.free size] ++ post))
      (front ++ (o + (8 + body.length)) :: back)) :
    Holds db.mem o (.used (makelong i b) body) ∧ o + (8 + body.length + size) < 2 ^ 31 := by
  have hpair := (tiles_append.mp h.tiles).2
  rw [ho] at hpair
  have hle := hpair.2.2.le
  have hsmall := h.small
  simp only [Rec.size] at hle
  exact ⟨hpair.1, by omega⟩

/-- The free record is split, and its first bytes join the key record. -/
theorem DbInv.extendSplit (ho : sizeofDatablockHeader + total pre = o)
    (h : DbInv b db (pre ++ (.used (makelong i b) body :: [.free size] ++ post))
      (front ++ (o + (8 + body.length)) :: back)) (hback : Chain db.mem next back)
    (hnext : next < 2 ^ 32) (hextra : size - wanted ≥ minimumFreeRecordLength) :
    ∃ l' chain', DbInv b (db.relinked (splitMemory db.mem o (8 + body.length) wanted size next)
        (o + (8 + body.length)) (o + (8 + body.length) + wanted) (db.freeBytes - wanted)) l' chain' ∧
      ∀ a, a ≠ makelong i b → bodyOf a l' =
        bodyOf a (pre ++ (.used (makelong i b) body :: [.free size] ++ post)) := by
  obtain ⟨hused, hsmall⟩ := h.pair_le ho
  have h34 : minimumFreeRecordLength = 34 := rfl
  have hbody := hused.2.2.2.1
  generalize hmem : splitMemory db.mem o (8 + body.length) wanted size next = m
  have hm : ∀ j, j < o ∨ o + (8 + body.length + size) ≤ j → m j = db.mem j := by
    intro j hj
    rw [← hmem, splitMemory]
    rw [setDword_ne (by omega), setDword_ne (by omega), setDword_ne (by omega),
      setDword_ne (by omega)]
  have hkey : Holds m o (.used (makelong i b)
      (bytesAt m (o + 8) (8 + body.length + wanted - 8))) := by
    refine holds_used ?_ ?_ hused.2.2.1 (by omega)
    · rw [← hmem, splitMemory]
      exact dwordAt_setDword (by omega)
    · rw [← hused.2.1, ← hmem, splitMemory]
      rw [dwordAt_setDword_ne (by omega), dwordAt_setDword_ne (by omega),
        dwordAt_setDword_ne (by omega), dwordAt_setDword_ne (by omega)]
  have hrest : Holds m (o + (8 + body.length) + wanted) (.free (size - wanted)) := by
    refine ⟨?_, ?_, by omega⟩
    · rw [← hmem, splitMemory]
      rw [dwordAt_setDword_ne (by omega), dwordAt_setDword (by omega)]
    · rw [← hmem, splitMemory]
      rw [dwordAt_setDword_ne (by omega), dwordAt_setDword_ne (by omega),
        dwordAt_setDword (by decide)]
  have hlinked : dwordAt m (o + (8 + body.length) + wanted + 8) = next := by
    rw [← hmem, splitMemory]
    rw [dwordAt_setDword_ne (by omega), dwordAt_setDword_ne (by omega),
      dwordAt_setDword_ne (by omega), dwordAt_setDword hnext]
  have hpos : o + (8 + (bytesAt m (o + 8) (8 + body.length + wanted - 8)).length) =
      o + (8 + body.length) + wanted := by
    rw [length_bytesAt]
    omega
  have hall : Tiles m o (.used (makelong i b) (bytesAt m (o + 8) (8 + body.length + wanted - 8)) ::
      [.free (size - wanted)]) (o + (8 + body.length + size)) := by
    refine ⟨hkey, ?_⟩
    rw [Rec.size, hpos]
    refine ⟨hrest, ?_⟩
    show o + (8 + body.length) + wanted + (size - wanted) = o + (8 + body.length + size)
    omega
  have hchain : Chain m (o + (8 + body.length) + wanted)
      (freeOffsets (o + (8 + (bytesAt m (o + 8) (8 + body.length + wanted - 8)).length))
        [.free (size - wanted)] ++ back) := by
    rw [hpos]
    refine ⟨rfl, ?_, ?_⟩
    · simp only [REG_NULL]
      omega
    · rw [hlinked]
      exact h.chainBack ho hback hm
  refine h.resize ho rfl hm hall hchain (by omega) ?_
  rw [h.freeBytes, freeTotal_pair]
  show freeTotal pre + (size + freeTotal post) - wanted =
    freeTotal pre + (size - wanted + 0 + freeTotal post)
  omega

/-- The whole free record joins the key record. -/
theorem DbInv.extendWhole (ho : sizeofDatablockHeader + total pre = o)
    (h : DbInv b db (pre ++ (.used (makelong i b) body :: [.free size] ++ post))
      (front ++ (o + (8 + body.length)) :: back)) (hback : Chain db.mem next back)
    (hnext : next < 2 ^ 32) :
    ∃ l' chain', DbInv b (db.relinked (setDword db.mem o (8 + body.length + size))
        (o + (8 + body.length)) next (db.freeBytes - size)) l' chain' ∧
      ∀ a, a ≠ makelong i b → bodyOf a l' =
        bodyOf a (pre ++ (.used (makelong i b) body :: [.free size] ++ post)) := by
  obtain ⟨hused, hsmall⟩ := h.pair_le ho
  have hbody := hused.2.2.2.1
  generalize hmem : setDword db.mem o (8 + body.length + size) = m
  have hm : ∀ j, j < o ∨ o + (8 + body.length + size) ≤ j → m j = db.mem j := by
    intro j hj
    rw [← hmem]
    exact setDword_ne (by omega)
  have hkey : Holds m o (.used (makelong i b)
      (bytesAt m (o + 8) (8 + body.length + size - 8))) := by
    refine holds_used ?_ ?_ hused.2.2.1 (by omega)
    · rw [← hmem]
      exact dwordAt_setDword (by omega)
    · rw [← hused.2.1, ← hmem]
      exact dwordAt_setDword_ne (by omega)
  have hall : Tiles m o [.used (makelong i b) (bytesAt m (o + 8) (8 + body.length + size - 8))]
      (o + (8 + body.length + size)) := by
    refine ⟨hkey, ?_⟩
    rw [Rec.size, length_bytesAt]
    show o + (8 + (8 + body.length + size - 8)) = o + (8 + body.length + size)
    omega
  refine h.resize ho rfl hm hall (h.chainBack ho hback hm) hnext ?_
  rw [h.freeBytes, freeTotal_pair]
  show freeTotal pre + (size + freeTotal post) - size = freeTotal pre + (0 + freeTotal post)
  omega

end

/-- Extending a key record into the free record behind it, or failing to. -/
theorem DbInv.extend {b : Nat} {db : Datablock} {l : List Rec} {chain : List Nat} {i : Nat}
    (h : DbInv b db l chain) (hi : i < keyRecordsPerDatablock) (hne : db.table i ≠ 0)
    (length : Nat) :
    ∃ l' chain', DbInv b (rgExtendKeyRecord db length (db.table i)).1 l' chain' ∧
      ∀ a, a ≠ makelong i b → bodyOf a l' = bodyOf a l := by
  obtain ⟨pre, body, post, hl, ho⟩ := h.used hi hne
  subst hl
  have hsplit := (tiles_append.mp h.tiles).2
  have hsize : dwordAt db.mem (sizeofDatablockHeader + total pre) = 8 + body.length := hsplit.1.1
  have hfails : (rgExtendKeyRecord db length (sizeofDatablockHeader + total pre)).1 = db →
      ∃ l' chain', DbInv b
        (rgExtendKeyRecord db length (sizeofDatablockHeader + total pre)).1 l' chain' ∧
        ∀ a, a ≠ makelong i b → bodyOf a l' = bodyOf a (pre ++ .used (makelong i b) body :: post) := by
    intro heq
    rw [heq]
    exact ⟨_, chain, h, fun _ _ => rfl⟩
  rw [ho]
  rcases hsplit.2.behind with hfail | hfree
  · exact hfails (rgExtendKeyRecord_fails hsize (Or.inl hfail))
  · obtain ⟨size, post, rfl⟩ := hfree
    have hfree := hsplit.2.1
    have hle := hsplit.2.2.le
    simp only [Rec.size] at hfree hle
    have hbad : ¬ (sizeofDatablockHeader + total pre + (8 + body.length) ≥ db.blockSize ∨
        hasIndex db.mem (sizeofDatablockHeader + total pre + (8 + body.length)) = true) := by
      have hlo := hfree.2.2
      rw [hfree.hasIndex_eq]
      simp only [Rec.isFree, Bool.not_true, Bool.false_eq_true, or_false]
      omega
    have hmove : pre ++ .used (makelong i b) body :: .free size :: post =
        (pre ++ [.used (makelong i b) body]) ++ .free size :: post := by
      rw [List.append_assoc]
      rfl
    have hblock := h.block
    rw [hmove] at hblock
    obtain ⟨front, back, hchain, hback⟩ := hblock.behind
    have htotal : total (pre ++ [.used (makelong i b) body]) = total pre + (8 + body.length) := by
      rw [total_append]
      rfl
    rw [htotal, ← Nat.add_assoc] at hchain hback
    subst hchain
    by_cases hwanted : (length + 2 ^ 32 - (8 + body.length)) % 2 ^ 32 > size
    · exact hfails (rgExtendKeyRecord_fails hsize (Or.inr (hfree.1.symm ▸ hwanted)))
    · by_cases hextra : size - (length + 2 ^ 32 - (8 + body.length)) % 2 ^ 32 ≥
          minimumFreeRecordLength
      · rw [rgExtendKeyRecord_split hsize hbad rfl hfree.1 hwanted rfl hextra]
        exact h.extendSplit rfl hback (dwordAt_lt _ _) hextra
      · rw [rgExtendKeyRecord_whole hsize hbad rfl hfree.1 hwanted rfl hextra]
        exact h.extendWhole rfl hback (dwordAt_lt _ _)

end SdkTools.Registry
