import SdkTools.Registry.DatablockInvariant

/-!
# Compacting and growing a datablock

Both leave the key records in their order, followed by one free record.
-/

namespace SdkTools.Registry

set_option autoImplicit false

theorem setFree_ne {m : Buffer} {o size next i : Nat} (h : i < o ∨ o + 12 ≤ i) :
    setFree m o size next i = m i := by
  unfold setFree
  rw [setDword_ne (by omega), setDword_ne (by omega), setDword_ne (by omega)]

theorem setFree_holds {m : Buffer} {o size next : Nat} (hlo : 12 ≤ size) (hhi : size < 2 ^ 32) :
    Holds (setFree m o size next) o (.free size) := by
  refine ⟨?_, ?_, hlo⟩
  · unfold setFree
    rw [dwordAt_setDword_ne (by omega), dwordAt_setDword_ne (by omega), dwordAt_setDword hhi]
  · unfold setFree
    rw [dwordAt_setDword_ne (by omega), dwordAt_setDword (by decide)]

theorem setFree_next {m : Buffer} {o size next : Nat} (h : next < 2 ^ 32) :
    dwordAt (setFree m o size next) (o + 8) = next := by
  unfold setFree
  exact dwordAt_setDword h

/-- The bytes of the key record of an address. -/
def bodyOf (address : Nat) : List Rec → Option (List UCHAR)
  | [] => none
  | .used a body :: l => if a = address then some body else bodyOf address l
  | .free _ :: l => bodyOf address l

theorem bodyOf_append (address : Nat) (a b : List Rec) :
    bodyOf address (a ++ b) = (bodyOf address a).or (bodyOf address b) := by
  induction a with
  | nil => rfl
  | cons r a ih =>
    cases r with
    | used x body =>
      simp only [List.cons_append, bodyOf, ih]
      split
      · rfl
      · rfl
    | free size => exact ih

theorem bodyOf_used (address : Nat) (l : List Rec) :
    bodyOf address (usedOf l) = bodyOf address l := by
  induction l with
  | nil => rfl
  | cons r l ih =>
    cases r with
    | used a body =>
      have hused : usedOf (.used a body :: l) = .used a body :: usedOf l := rfl
      rw [hused, bodyOf, bodyOf, ih]
    | free size => exact ih

/-- The key records of a block, and one free record behind them. -/
def packed (l : List Rec) (size : Nat) : List Rec := usedOf l ++ [.free size]

theorem addresses_packed (l : List Rec) (size : Nat) :
    addresses (packed l size) = addresses l := by
  rw [packed, addresses_append, addresses_used]
  exact List.append_nil _

theorem bodyOf_packed (address : Nat) (l : List Rec) (size : Nat) :
    bodyOf address (packed l size) = bodyOf address l := by
  rw [packed, bodyOf_append, bodyOf_used]
  exact Option.or_none

theorem freeOffsets_packed (l : List Rec) (size o : Nat) :
    freeOffsets o (packed l size) = [o + total (usedOf l)] := by
  rw [packed, freeOffsets_append, freeOffsets_used]
  rfl

theorem freeTotal_packed (l : List Rec) (size : Nat) : freeTotal (packed l size) = size := by
  rw [packed, freeTotal_append, freeTotal_used, Nat.zero_add]
  rfl

/-- A free record behind the key records makes a block of its own size. -/
theorem tiles_packed {m : Buffer} {l : List Rec} {o size : Nat}
    (hused : Tiles m o (usedOf l) (o + total (usedOf l)))
    (hfree : Holds m (o + total (usedOf l)) (.free size)) :
    Tiles m o (packed l size) (o + total (usedOf l) + size) :=
  tiles_append.mpr ⟨hused, hfree, rfl⟩

theorem DbInv.size_eq {b : Nat} {db : Datablock} {l : List Rec} {chain : List Nat}
    (h : DbInv b db l chain) :
    db.blockSize = sizeofDatablockHeader + total (usedOf l) + db.freeBytes := by
  rw [h.tiles.end_eq, total_used l, h.freeBytes, Nat.add_assoc]

/-- Only the bytes of the block matter. -/
theorem DbInv.memory {b : Nat} {db : Datablock} {l : List Rec} {chain : List Nat} {m : Buffer}
    (h : DbInv b db l chain) (hm : ∀ i < db.blockSize, m i = db.mem i) :
    DbInv b { db with mem := m } l chain where
  number := h.number
  small := h.small
  aligned := h.aligned
  tiles := h.tiles.congr fun i _ hi => hm i hi
  linked := by
    refine Chain.congr (fun x hx => ?_) h.linked
    have hin := h.tiles.freeOffset (h.visits.mem_iff.mp hx)
    exact dwordAt_congr fun k hk => hm _ (by omega)
  visits := h.visits
  freeBytes := h.freeBytes
  addressed := h.addressed
  table := h.table
  index := h.index

/-- A block whose records have been put together, with a table that finds them. -/
theorem DbInv.of_packed {b : Nat} {db : Datablock} {l : List Rec} {chain : List Nat}
    (h : DbInv b db l chain) (db' : Datablock) (hsmall : db'.blockSize < 2 ^ 31) (haligned : db'.blockSize % 4096 = 0)
    (hsize : db'.blockSize = sizeofDatablockHeader + total (usedOf l) + db'.freeBytes)
    (hused : Tiles db'.mem sizeofDatablockHeader (usedOf l)
      (sizeofDatablockHeader + total (usedOf l)))
    (hfree : Holds db'.mem (sizeofDatablockHeader + total (usedOf l)) (.free db'.freeBytes))
    (hnext : dwordAt db'.mem (sizeofDatablockHeader + total (usedOf l) + 8) = REG_NULL)
    (hhead : db'.firstFreeOffset = sizeofDatablockHeader + total (usedOf l))
    (htable : ∀ i < keyRecordsPerDatablock,
      db'.table i = entryOf b (packed l db'.freeBytes) i)
    (hfirst : db'.firstFreeIndex = db.firstFreeIndex)
    (hmax : db'.maxAllocatedIndex = db.maxAllocatedIndex) :
    DbInv b db' (packed l db'.freeBytes)
      [sizeofDatablockHeader + total (usedOf l)] where
  number := h.number
  small := hsmall
  aligned := haligned
  tiles := by
    rw [hsize]
    exact tiles_packed hused hfree
  linked := by
    have hlo : 12 ≤ db'.freeBytes := hfree.2.2
    refine ⟨hhead, ?_, hnext⟩
    simp only [REG_NULL]
    omega
  visits := by rw [freeOffsets_packed]
  freeBytes := (freeTotal_packed l _).symm
  addressed := h.addressed.of_eq (addresses_packed l _)
  table := htable
  index := by
    rw [hfirst, hmax]
    exact h.index.of_eq (addresses_packed l _)

/-- The block has one free record, at its end. -/
theorem packed_of_last {m : Buffer} {l pre post : List Rec} {o e size : Nat}
    (h : Tiles m o l e) (hl : l = pre ++ .free size :: post) (he : e ≤ o + total pre + size)
    (hfree : freeOffsets o l = [o + total pre]) : packed l (freeTotal l) = l := by
  subst hl
  obtain ⟨-, hpost⟩ := tiles_append.mp h
  have hend := hpost.2.length_le
  simp only [Rec.size] at hend
  have hnil : post = [] := List.length_eq_zero_iff.mp (by omega)
  subst hnil
  have hpre : freeOffsets o pre = [] := by
    rw [freeOffsets_append] at hfree
    have hlen := congrArg List.length hfree
    simp only [List.length_append, freeOffsets, List.length_cons, List.length_nil] at hlen
    exact List.length_eq_zero_iff.mp (by omega)
  have hused : usedOf pre = pre := usedOf_eq_self hpre
  have htotal : freeTotal pre = 0 := by rw [← hused]; exact freeTotal_used pre
  have husedAll : usedOf (pre ++ [.free size]) = pre := by
    rw [usedOf, List.filter_append]
    exact (List.append_nil _).trans hused
  rw [packed, husedAll, freeTotal_append, htotal, Nat.zero_add]
  rfl

/-- Compacting leaves a block without free records alone, and puts the records
of any other together. -/
theorem DbInv.compact {b : Nat} {db : Datablock} {l : List Rec} {chain : List Nat}
    (h : DbInv b db l chain) :
    (chain = [] ∧ usedOf l = l ∧ db.freeBytes = 0 ∧ rgCompactDatablock db = db) ∨
    ((rgCompactDatablock db).freeBytes = db.freeBytes ∧
      (rgCompactDatablock db).blockSize = db.blockSize ∧
      DbInv b (rgCompactDatablock db) (packed l db.freeBytes)
        [sizeofDatablockHeader + total (usedOf l)]) := by
  have hle := h.tiles.le
  cases hc : chain with
  | nil =>
    rw [hc] at h
    left
    have hnull : db.firstFreeOffset = REG_NULL := h.linked
    have hused : usedOf l = l := usedOf_eq_self h.visits.symm.eq_nil
    refine ⟨rfl, hused, ?_, ?_⟩
    · rw [h.freeBytes, ← hused]
      exact freeTotal_used l
    · rw [rgCompactDatablock, if_pos hnull]
  | cons x chain =>
    rw [hc] at h
    right
    obtain ⟨hhead, hx, hlinked⟩ := h.linked
    have hmem : x ∈ freeOffsets sizeofDatablockHeader l := h.visits.mem_iff.mp List.mem_cons_self
    obtain ⟨pre, size, post, hl, hxo⟩ := freeOffsets_split hmem
    have hfree : Holds db.mem x (.free size) := by
      have htiles := h.tiles
      rw [hl, tiles_append] at htiles
      rw [hxo]
      exact htiles.2.1
    by_cases hlast : db.firstFreeOffset + dwordAt db.mem db.firstFreeOffset ≥ db.blockSize ∧
        dwordAt db.mem (db.firstFreeOffset + 8) = REG_NULL
    · have hsame : rgCompactDatablock db = db := by
        rw [rgCompactDatablock, if_neg (by rw [hhead]; exact hx), if_pos hlast]
      obtain ⟨hend, hnext⟩ := hlast
      rw [hhead] at hend hnext
      rw [hfree.1] at hend
      have hnil : chain = [] := by
        cases chain with
        | nil => rfl
        | cons y chain => exact absurd (hlinked.1.symm.trans hnext) hlinked.2.1
      subst hnil
      have hone : freeOffsets sizeofDatablockHeader l = [sizeofDatablockHeader + total pre] := by
        rw [← hxo]
        exact List.perm_singleton.mp h.visits.symm
      have hpacked : packed l db.freeBytes = l := by
        rw [h.freeBytes]
        exact packed_of_last h.tiles hl (by omega) hone
      have hoffset := freeOffsets_packed l db.freeBytes sizeofDatablockHeader
      rw [hpacked, hone, ← hxo] at hoffset
      rw [hsame, hpacked, ← hoffset]
      exact ⟨rfl, rfl, h⟩
    · have hne : l ≠ [] := by
        rw [hl]
        exact List.append_ne_nil_of_right_ne_nil _ (List.cons_ne_nil _ _)
      obtain ⟨m, hloop, htiles⟩ := compactLoop_block h.tiles hne
      have hsize := h.size_eq
      have hbytes : 12 ≤ db.freeBytes := by
        rw [h.freeBytes, hl, freeTotal_append]
        have hlo := hfree.2.2
        have hcons : freeTotal (.free size :: post) = size + freeTotal post := rfl
        omega
      have hsmall := h.small
      let db₁ : Datablock :=
        { db with
          mem := setFree m (32 + total (usedOf l)) db.freeBytes REG_NULL
          firstFreeOffset := 32 + total (usedOf l) }
      have heq : rgCompactDatablock db = db₁.rebuildTable := by
        rw [rgCompactDatablock, if_neg (by rw [hhead]; exact hx), if_neg hlast]
        simp only [hloop, Option.getD_some]
        rfl
      have hused₁ : Tiles db₁.mem 32 (usedOf l) (32 + total (usedOf l)) :=
        htiles.congr fun i _ hi => setFree_ne (Or.inl hi)
      have hfree₁ : Holds db₁.mem (32 + total (usedOf l)) (.free db.freeBytes) :=
        setFree_holds hbytes (by omega)
      have htiles₁ : Tiles db₁.mem 32 (packed l db.freeBytes) db₁.blockSize := by
        have hall := tiles_packed hused₁ hfree₁
        rw [← show db₁.blockSize = 32 + total (usedOf l) + db.freeBytes from hsize] at hall
        exact hall
      rw [heq]
      refine ⟨rfl, rfl, ?_⟩
      apply h.of_packed db₁.rebuildTable h.small h.aligned hsize hused₁ hfree₁
      · exact setFree_next (by decide)
      · rfl
      · intro i hi
        exact rebuildTable_entry htiles₁ h.small (h.addressed.of_eq (addresses_packed l _)) hi
      · rfl
      · rfl

theorem roundUp_ge {size : Nat} (h : size + 4095 < 2 ^ 32) :
    size ≤ rgAlignBlockSize size ∧ rgAlignBlockSize size % 4096 = 0 ∧
      rgAlignBlockSize size ≤ size + 4095 := by
  simp only [rgAlignBlockSize, roundUp]
  rw [Nat.mod_eq_of_lt (by omega)]
  omega

theorem usedOf_packed (l : List Rec) (size : Nat) : usedOf (packed l size) = usedOf l := by
  rw [packed, usedOf, List.filter_append]
  exact (List.append_nil _).trans
    (List.filter_eq_self.mpr fun r hr => (List.mem_filter.mp hr).2)

theorem packed_packed (l : List Rec) (s t : Nat) :
    packed (packed l s) t = packed l t := by
  rw [packed, usedOf_packed]
  rfl

theorem entryOf_packed {b : Nat} {l : List Rec} {s t i : Nat} :
    entryOf b (packed l s) i = entryOf b (packed l t) i := by
  simp only [entryOf, packed, find_append, find]

/-- A block without free records grows by one. -/
theorem DbInv.growTo_full {b : Nat} {db : Datablock} {l : List Rec} {n : Nat}
    (h : DbInv b db l []) (hused : usedOf l = l) (hzero : db.freeBytes = 0) (hn : n < 2 ^ 31)
    (haligned : n % 4096 = 0) (hgrow : db.blockSize + 12 ≤ n) :
    DbInv b (db.growTo n) (packed l (n - db.blockSize))
      [sizeofDatablockHeader + total (usedOf l)] := by
  have hsize := h.size_eq
  have hend : db.blockSize = sizeofDatablockHeader + total (usedOf l) := by omega
  have heq : db.growTo n =
      { db with
        mem := setDword (setDword (setDword db.mem (db.blockSize + 4) REG_NULL)
          (db.blockSize + 8) REG_NULL) db.blockSize (n - db.blockSize)
        firstFreeOffset := db.blockSize
        freeBytes := n - db.blockSize
        blockSize := n } := by
    have hnull : db.firstFreeOffset = REG_NULL := h.linked
    simp only [Datablock.growTo, hnull, if_true, hzero, Nat.zero_add]
  rw [heq]
  apply h.of_packed
  · exact hn
  · exact haligned
  · show n = sizeofDatablockHeader + total (usedOf l) + (n - db.blockSize)
    omega
  · rw [← hend, hused]
    refine h.tiles.congr fun i _ hi => ?_
    simp only
    rw [setDword_ne (by omega), setDword_ne (by omega), setDword_ne (by omega)]
  · rw [← hend]
    refine ⟨dwordAt_setDword (by omega), ?_, ?_⟩
    · simp only
      rw [dwordAt_setDword_ne (by omega), dwordAt_setDword_ne (by omega),
        dwordAt_setDword (by decide)]
    · show 12 ≤ n - db.blockSize
      omega
  · rw [← hend]
    simp only
    rw [dwordAt_setDword_ne (by omega), dwordAt_setDword (by decide)]
  · exact hend
  · intro i hi
    simp only [h.table i hi, entryOf, packed, find_append, find, hused, Option.or_none]
  · rfl
  · rfl

/-- The free record at the end of a block grows with it. -/
theorem DbInv.growTo_free {b : Nat} {db : Datablock} {l : List Rec} {size n : Nat}
    (h : DbInv b db (packed l size) [sizeofDatablockHeader + total (usedOf l)])
    (hs : db.freeBytes = size) (hn : n < 2 ^ 31) (haligned : n % 4096 = 0)
    (hgrow : db.blockSize ≤ n) :
    DbInv b (db.growTo n) (packed l (size + (n - db.blockSize)))
      [sizeofDatablockHeader + total (usedOf l)] := by
  subst hs
  have hsize := h.size_eq
  rw [usedOf_packed] at hsize
  obtain ⟨hhead, hnot, hnext⟩ := h.linked
  obtain ⟨hused, hfree, -⟩ := tiles_append.mp h.tiles
  have hlo := hfree.2.2
  have heq : db.growTo n =
      { db with
        mem := setDword db.mem db.firstFreeOffset (db.freeBytes + (n - db.blockSize))
        freeBytes := db.freeBytes + (n - db.blockSize)
        blockSize := n } := by
    simp only [Datablock.growTo]
    rw [if_neg (by rw [hhead]; exact hnot)]
  rw [heq, ← packed_packed l db.freeBytes, ← usedOf_packed l db.freeBytes]
  apply h.of_packed
  · exact hn
  · exact haligned
  · rw [usedOf_packed]
    show n = sizeofDatablockHeader + total (usedOf l) + (db.freeBytes + (n - db.blockSize))
    omega
  · rw [usedOf_packed]
    refine hused.congr fun i _ hi => ?_
    rw [hhead]
    exact setDword_ne (Or.inl hi)
  · rw [usedOf_packed, hhead]
    refine ⟨dwordAt_setDword (by omega), ?_, ?_⟩
    · rw [dwordAt_setDword_ne (by omega)]
      exact hfree.2.1
    · show 12 ≤ db.freeBytes + (n - db.blockSize)
      omega
  · rw [usedOf_packed, hhead]
    rw [dwordAt_setDword_ne (by omega)]
    exact hnext
  · rw [usedOf_packed]
    exact hhead
  · intro i hi
    rw [packed_packed]
    exact (h.table i hi).trans entryOf_packed
  · rfl
  · rfl

/-- Growing a block makes the free bytes one record at its end, and adds to them. -/
theorem DbInv.grow {b : Nat} {db : Datablock} {l : List Rec} {chain : List Nat}
    {length : Nat} (h : DbInv b db l chain) (behind : Buffer) (hlen : length < 2 ^ 30)
    (hneed : db.freeBytes < length)
    (hmax : rgAlignBlockSize ((db.blockSize + length - db.freeBytes) % 2 ^ 32) ≤
      maximumDatablockSize) :
    ∃ db' size, rgExtendDatablock db length (some behind) = (db', none) ∧ length ≤ size ∧
      DbInv b db' (packed l size) [sizeofDatablockHeader + total (usedOf l)] := by
  have hsmall := h.small
  have hsize := h.size_eq
  have halign := h.aligned
  have hmod : (db.blockSize + length - db.freeBytes) % 2 ^ 32 =
      db.blockSize + length - db.freeBytes := Nat.mod_eq_of_lt (by omega)
  obtain ⟨hge, haligned, hlt⟩ := roundUp_ge
    (show db.blockSize + length - db.freeBytes + 4095 < 2 ^ 32 by omega)
  -- the block in its new memory
  obtain ⟨db₁, h₁, hblock, hbytes, heq⟩ : ∃ db₁, DbInv b db₁ l chain ∧
      db₁.blockSize = db.blockSize ∧ db₁.freeBytes = db.freeBytes ∧
      rgExtendDatablock db length (some behind) =
        ((rgCompactDatablock db₁).growTo
          (rgAlignBlockSize ((db.blockSize + length - db.freeBytes) % 2 ^ 32)), none) := by
    refine ⟨_, h.memory (m := fun i => if i < db.blockSize then db.mem i else behind i)
      fun i hi => if_pos hi, rfl, rfl, ?_⟩
    simp only [rgExtendDatablock, if_neg (Nat.not_le_of_lt hneed), if_neg (Nat.not_lt_of_le hmax)]
  rw [hmod] at hmax heq
  have hn : rgAlignBlockSize (db.blockSize + length - db.freeBytes) < 2 ^ 31 := by
    simp only [maximumDatablockSize] at hmax
    omega
  rcases h₁.compact with ⟨hnil, hused, hzero, hsame⟩ | ⟨hbytes', hblock', hinv⟩
  · subst hnil
    rw [hsame] at heq
    refine ⟨_, _, heq, ?_, h₁.growTo_full hused hzero hn haligned (by omega)⟩
    omega
  · refine ⟨_, _, heq, ?_, hinv.growTo_free hbytes' hn haligned (by omega)⟩
    omega

end SdkTools.Registry
