import SdkTools.Registry.Compaction
import SdkTools.Registry.KeyRecordTable

/-!
# The invariant of a datablock

The records tile the block, the chain visits the free ones, and the index table
finds the key records.
-/

namespace SdkTools.Registry

set_option autoImplicit false

/-- The addresses are those of different indexes in the block. -/
structure Addressed (b : Nat) (l : List Rec) : Prop where
  nodup : (addresses l).Nodup
  indexed : ∀ a ∈ addresses l, ∃ i, i < keyRecordsPerDatablock ∧ a = makelong i b

/-- `first` is the least index that is not in use, and no index above `max` is. -/
structure IndexOk (b : Nat) (l : List Rec) (first max : Nat) : Prop where
  le : first ≤ keyRecordsPerDatablock
  below : ∀ i < first, makelong i b ∈ addresses l
  hole : first < keyRecordsPerDatablock → makelong first b ∉ addresses l
  max_lt : max < keyRecordsPerDatablock
  le_max : ∀ i < keyRecordsPerDatablock, makelong i b ∈ addresses l → i ≤ max

/-- Where the record of an index lies, 0 if there is none. -/
def entryOf (b : Nat) (l : List Rec) (i : Nat) : Nat :=
  ((find (makelong i b) sizeofDatablockHeader l).map Prod.fst).getD 0

/-- `l` are the records of block `b`, `chain` its free ones in list order. -/
structure DbInv (b : Nat) (db : Datablock) (l : List Rec) (chain : List Nat) : Prop where
  number : b < 0xFFFF
  small : db.blockSize < 2 ^ 31
  aligned : db.blockSize % 4096 = 0
  tiles : Tiles db.mem sizeofDatablockHeader l db.blockSize
  linked : Chain db.mem db.firstFreeOffset chain
  visits : chain.Perm (freeOffsets sizeofDatablockHeader l)
  freeBytes : db.freeBytes = freeTotal l
  addressed : Addressed b l
  table : ∀ i < keyRecordsPerDatablock, db.table i = entryOf b l i
  index : IndexOk b l db.firstFreeIndex db.maxAllocatedIndex

theorem makelong_inj {i j b : Nat} (h : makelong i b = makelong j b) : i = j := by
  simp only [makelong] at h
  omega

theorem loword_makelong {i b : Nat} (h : i < keyRecordsPerDatablock) :
    loword (makelong i b) = i := by
  simp only [keyRecordsPerDatablock] at h
  simp only [loword, makelong]
  omega

/-- What the table-building loop does on a block that is tiled. -/
def buildAccesses : Nat → List Rec → List Access
  | _, [] => []
  | o, .used address body :: l =>
    .read o 8 :: .store (loword address) o :: buildAccesses (o + (8 + body.length)) l
  | o, .free size :: l => .read o 8 :: buildAccesses (o + size) l

theorem passes_of_holds {m : Buffer} {o remaining : Nat} {r : Rec} (h : Holds m o r)
    (hle : r.size ≤ remaining)
    (haddress : ∀ a body, r = .used a body → loword a < keyRecordsPerDatablock) :
    passes m o remaining = true := by
  have hsize := h.le_size
  have hzero : decide (r.size = 0) = false := decide_eq_false (by omega)
  have hgt : decide (r.size > remaining) = false := decide_eq_false (by omega)
  simp only [passes, h.size_eq, hzero, hgt, Bool.or_self, Bool.false_or, Bool.not_eq_true',
    Bool.and_eq_false_iff, decide_eq_false_iff_not]
  cases r with
  | used a body =>
    right
    rw [h.2.1]
    exact Nat.not_le_of_lt (haddress a body rfl)
  | free size =>
    left
    rw [h.2.1]
    exact fun hne => hne rfl

theorem buildLoop_tiles {m : Buffer} {blockSize : Nat} (hb : blockSize < 2 ^ 32) {l : List Rec} :
    ∀ {o : Nat} {t : KeyRecordTable}, Tiles m o l blockSize →
    (∀ a ∈ addresses l, loword a < keyRecordsPerDatablock) →
    (buildLoop m o (blockSize - o) t).1 = buildAccesses o l := by
  induction l with
  | nil =>
    intro o t h _
    have hzero : blockSize - o = 0 := Nat.sub_eq_zero_of_le (Nat.le_of_eq h.symm)
    rw [buildLoop, if_pos hzero]
    rfl
  | cons r l ih =>
    intro o t h haddresses
    have hsize := h.1.le_size
    have hle := h.2.le
    have hne : ¬ blockSize - o = 0 := by omega
    have hoff : (o + r.size) % 2 ^ 32 = o + r.size := Nat.mod_eq_of_lt (by omega)
    have hpasses : passes m o (blockSize - o) = true := by
      refine passes_of_holds h.1 (by omega) fun a body hr => haddresses a ?_
      rw [hr]
      exact List.mem_cons_self
    rw [buildLoop, if_neg hne, dif_pos hpasses]
    simp only [h.1.size_eq, hoff, h.1.hasIndex_eq, Nat.sub_sub]
    cases r with
    | used a body =>
      have hindex : indexOf m o = loword a := congrArg loword h.1.2.1
      simp only [Rec.isFree, Bool.not_false, if_true, hindex]
      rw [ih h.2 fun a ha => haddresses a (List.mem_cons_of_mem _ ha)]
      rfl
    | free size =>
      simp only [Rec.isFree, Bool.not_true, Bool.false_eq_true, if_false]
      rw [ih h.2 haddresses]
      rfl

theorem storeAll_build {b : Nat} {l : List Rec} : ∀ {o : Nat} {t : KeyRecordTable} {i : Nat},
    Addressed b l → i < keyRecordsPerDatablock →
    storeAll t (buildAccesses o l) i =
      ((find (makelong i b) o l).map Prod.fst).getD (t i) := by
  induction l with
  | nil =>
    intro o t i _ _
    rfl
  | cons r l ih =>
    intro o t i h hi
    cases r with
    | free size => exact ih ⟨h.nodup, h.indexed⟩ hi
    | used a body =>
      obtain ⟨hnot, hnodup⟩ := List.nodup_cons.mp h.nodup
      have hl : Addressed b l := ⟨hnodup, fun a ha => h.indexed a (List.mem_cons_of_mem _ ha)⟩
      obtain ⟨j, hj, hja⟩ := h.indexed a List.mem_cons_self
      simp only [buildAccesses, storeAll, find]
      rw [ih hl hi, hja, loword_makelong hj]
      by_cases hij : i = j
      · subst hij
        rw [if_pos rfl, ← hja, find_none hnot]
        exact if_pos rfl
      · rw [if_neg fun heq => hij (makelong_inj heq).symm, storeEntry, if_neg hij]

/-- The rebuilt table finds the key records. -/
theorem rebuildTable_entry {b : Nat} {db : Datablock} {l : List Rec} {i : Nat}
    (htiles : Tiles db.mem sizeofDatablockHeader l db.blockSize) (hsmall : db.blockSize < 2 ^ 31)
    (h : Addressed b l) (hi : i < keyRecordsPerDatablock) :
    db.rebuildTable.table i = entryOf b l i := by
  have hle := htiles.le
  have hfirst : firstRemaining db.blockSize = db.blockSize - sizeofDatablockHeader := by
    simp only [firstRemaining, sizeofDatablockHeader] at hle ⊢
    omega
  have hlow : ∀ a ∈ addresses l, loword a < keyRecordsPerDatablock := by
    intro a ha
    obtain ⟨j, hj, rfl⟩ := h.indexed a ha
    rw [loword_makelong hj]
    exact hj
  have haccesses : (rgBuildKeyRecordTable db.mem db.blockSize db.table).1 =
      buildAccesses sizeofDatablockHeader l := by
    rw [rgBuildKeyRecordTable, hfirst]
    exact buildLoop_tiles (by omega) htiles hlow
  simp only [Datablock.rebuildTable, haccesses]
  rw [storeAll_build h hi, zeroTable, if_pos hi]
  rfl

theorem addresses_used (l : List Rec) : addresses (usedOf l) = addresses l := by
  induction l with
  | nil => rfl
  | cons r l ih =>
    cases r with
    | used a body => exact congrArg (List.cons a) ih
    | free size => exact ih

theorem total_used (l : List Rec) : total l = total (usedOf l) + freeTotal l := by
  induction l with
  | nil => rfl
  | cons r l ih =>
    cases r with
    | used a body =>
      have hfree : freeTotal (.used a body :: l) = freeTotal l := Nat.zero_add _
      have hused : usedOf (.used a body :: l) = .used a body :: usedOf l := rfl
      rw [hused, total_cons, total_cons, ih, hfree, Nat.add_assoc]
    | free size =>
      have hfree : freeTotal (.free size :: l) = size + freeTotal l := rfl
      have hused : usedOf (.free size :: l) = usedOf l := rfl
      rw [hused, total_cons, ih, hfree, Rec.size]
      omega

theorem freeTotal_used (l : List Rec) : freeTotal (usedOf l) = 0 := by
  have h := total_used (usedOf l)
  have htwice : usedOf (usedOf l) = usedOf l :=
    List.filter_eq_self.mpr fun r hr => (List.mem_filter.mp hr).2
  rw [htwice] at h
  omega

theorem freeOffsets_used (l : List Rec) : ∀ o : Nat, freeOffsets o (usedOf l) = [] := by
  induction l with
  | nil =>
    intro o
    rfl
  | cons r l ih =>
    intro o
    cases r with
    | used a body => exact ih _
    | free size => exact ih o

theorem usedOf_eq_self {l : List Rec} : ∀ {o : Nat}, freeOffsets o l = [] → usedOf l = l := by
  induction l with
  | nil =>
    intro o _
    rfl
  | cons r l ih =>
    intro o h
    cases r with
    | used a body => exact congrArg (List.cons _) (ih h)
    | free size => cases h

theorem freeOffsets_split {l : List Rec} {x : Nat} : ∀ {o : Nat}, x ∈ freeOffsets o l →
    ∃ pre size post, l = pre ++ .free size :: post ∧ x = o + total pre := by
  induction l with
  | nil =>
    intro o h
    exact absurd h List.not_mem_nil
  | cons r l ih =>
    intro o h
    cases r with
    | used a body =>
      obtain ⟨pre, size, post, hl, hx⟩ := ih h
      refine ⟨.used a body :: pre, size, post, by rw [hl]; rfl, ?_⟩
      rw [hx, total_cons, Rec.size, Nat.add_assoc]
    | free s =>
      rcases List.mem_cons.mp h with rfl | h
      · exact ⟨[], s, l, rfl, rfl⟩
      · obtain ⟨pre, size, post, hl, hx⟩ := ih h
        refine ⟨.free s :: pre, size, post, by rw [hl]; rfl, ?_⟩
        rw [hx, total_cons, Rec.size, Nat.add_assoc]

theorem Addressed.of_eq {b : Nat} {l l' : List Rec} (h : Addressed b l)
    (heq : addresses l' = addresses l) : Addressed b l' :=
  ⟨heq ▸ h.nodup, heq ▸ h.indexed⟩

theorem IndexOk.of_eq {b : Nat} {l l' : List Rec} {first max : Nat} (h : IndexOk b l first max)
    (heq : addresses l' = addresses l) : IndexOk b l' first max :=
  ⟨h.le, heq ▸ h.below, heq ▸ h.hole, h.max_lt, heq ▸ h.le_max⟩

end SdkTools.Registry
