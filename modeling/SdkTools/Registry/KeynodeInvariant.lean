import SdkTools.Registry.Keynodes
import SdkTools.Lib.Run
import Mathlib.Data.List.Nodup

/-!
# The free list of the keynode table

Every free record stands for a run of slots; the runs and the keynodes in use
lie in the table and are pairwise disjoint.
-/

namespace SdkTools.Registry

set_option autoImplicit false

/-- Where the slot of an index starts in the table of the file. -/
def slotStart (version20 : Bool) (index : Nat) : Nat :=
  if version20 then index * sizeofKeynode else rgIndexToOffset index

def slotSize (version20 : Bool) : Nat := if version20 then sizeofKeynode else sizeofW95Keynode

/-- The index has a slot of its own in a table of the size. In the Win95 format
the first two pages are filled through, and from then on each page by itself. -/
def ValidSlot (version20 : Bool) (size index : Nat) : Prop :=
  index ≤ 0xFFFFFF ∧
    if version20 then index * 16 + 16 ≤ size
    else 1 ≤ index ∧
      if index < 292 then index * 28 + 32 ≤ size
      else (index * 28 + 27) / 4096 * 4096 + 4096 ≤ size ∧ (index * 28 + 27) % 4096 < 4088

/-- The sizes the table takes on. -/
def TableSize (version20 : Bool) (size : Nat) : Prop :=
  size < 2 ^ 32 ∧
    if version20 then size % 4096 = 0
    else size = 32 ∨ size = 4064 ∨ (8192 ≤ size ∧ size % 4096 = 0)

theorem slotStart_win95 {index : Nat} (h : index < 0xFFFFFF) :
    slotStart false index =
      if index < 292 then index * 28 + 4
      else (index * 28 + 27) / 4096 * 4096 + (index * 28 + 27) % 4096 / 28 * 28 := by
  have hn : isNullKeynodeIndex index = false := by
    simp only [isNullKeynodeIndex, decide_eq_false_iff_not]
    omega
  have hpages : 2 * w95KeynodesPerPage = 292 := rfl
  simp only [slotStart, rgIndexToOffset, hn, hpages, Bool.false_eq_true, if_false]
  by_cases h292 : index < 292
  · rw [if_neg (by omega), if_pos h292]
    simp only [sizeofW95Keynode, sizeofKeynodeHeader]
    omega
  · rw [if_pos (by omega), if_neg h292]
    have hoff : index * sizeofW95Keynode + sizeofW95Keynode - 1 = index * 28 + 27 := by
      simp only [sizeofW95Keynode]
      omega
    rw [hoff]
    simp only [sizeofW95Keynode, pageSize]
    omega

/-- A slot lies inside of the table. -/
theorem ValidSlot.inside {v : Bool} {size index : Nat} (h : ValidSlot v size index)
    (hn : index < 0xFFFFFF) : slotStart v index + slotSize v ≤ size := by
  obtain ⟨-, h⟩ := h
  cases v with
  | true =>
    simp only [if_true] at h
    simpa [slotStart, slotSize, sizeofKeynode] using h
  | false =>
    simp only [Bool.false_eq_true, if_false] at h
    obtain ⟨hpos, h⟩ := h
    rw [slotStart_win95 hn]
    simp only [slotSize, sizeofW95Keynode, Bool.false_eq_true, if_false]
    split
    · rename_i hlt
      rw [if_pos hlt] at h
      omega
    · rename_i hge
      rw [if_neg hge] at h
      omega

theorem page_eq {x : Nat} (q : Nat) (hlo : q * 4096 ≤ x) (hhi : x < q * 4096 + 4096) :
    x / 4096 = q := by
  omega

/-- A slot lies in one page, but for index 146 of the Win95 format. -/
theorem ValidSlot.in_page {v : Bool} {size index : Nat} (h : ValidSlot v size index)
    (hn : index < 0xFFFFFF) (h146 : v = true ∨ index ≠ 146) :
    slotStart v index / pageSize = (slotStart v index + slotSize v - 1) / pageSize := by
  obtain ⟨-, h⟩ := h
  cases v with
  | true =>
    simp only [slotStart, slotSize, sizeofKeynode, pageSize, if_true]
    omega
  | false =>
    have h146 : index ≠ 146 := by simpa using h146
    simp only [Bool.false_eq_true, if_false] at h
    obtain ⟨hpos, h⟩ := h
    rw [slotStart_win95 hn]
    simp only [slotSize, sizeofW95Keynode, pageSize, Bool.false_eq_true, if_false]
    by_cases hlt : index < 292
    · rw [if_pos hlt]
      rcases Nat.lt_or_gt_of_ne h146 with h | h
      · rw [Nat.div_eq_of_lt (by omega), Nat.div_eq_of_lt (by omega)]
      · rw [page_eq 1 (by omega) (by omega), page_eq 1 (by omega) (by omega)]
    · rw [if_neg hlt] at h ⊢
      have hin : (index * 28 + 27) % 4096 / 28 * 28 + 28 ≤ 4096 := by omega
      exact (page_eq ((index * 28 + 27) / 4096) (by omega) (by omega)).trans
        (page_eq ((index * 28 + 27) / 4096) (by omega) (by omega)).symm

/-- Slots of different indexes do not overlap. -/
theorem ValidSlot.disjoint {v : Bool} {size i j : Nat} (hi : ValidSlot v size i)
    (hj : ValidSlot v size j) (hni : i < 0xFFFFFF) (hnj : j < 0xFFFFFF) (hij : i < j) :
    slotStart v i + slotSize v ≤ slotStart v j := by
  obtain ⟨-, hi⟩ := hi
  obtain ⟨-, hj⟩ := hj
  cases v with
  | true =>
    simp only [slotStart, slotSize, sizeofKeynode, if_true]
    omega
  | false =>
    simp only [Bool.false_eq_true, if_false] at hi hj
    obtain ⟨hposi, hi⟩ := hi
    obtain ⟨hposj, hj⟩ := hj
    rw [slotStart_win95 hni, slotStart_win95 hnj]
    simp only [slotSize, sizeofW95Keynode, Bool.false_eq_true, if_false]
    by_cases hj2 : j < 292
    · rw [if_pos hj2, if_pos (by omega)]
      omega
    · rw [if_neg hj2]
      rw [if_neg hj2] at hj
      by_cases hi2 : i < 292
      · rw [if_pos hi2]
        omega
      · rw [if_neg hi2]
        rw [if_neg hi2] at hi
        have hq : (i * 28 + 27) / 4096 ≤ (j * 28 + 27) / 4096 := Nat.div_le_div_right (by omega)
        rcases Nat.lt_or_eq_of_le hq with hq | hq
        · have hin : (i * 28 + 27) % 4096 / 28 * 28 + 28 ≤ 4096 := by omega
          omega
        · have hm : (i * 28 + 27) % 4096 + 28 ≤ (j * 28 + 27) % 4096 := by omega
          have hd : (i * 28 + 27) % 4096 / 28 + 1 ≤ (j * 28 + 27) % 4096 / 28 := by omega
          omega

/-- The number of slots a free record stands for. -/
def nodes (fi : FileInfo) (index : Nat) : Nat :=
  (fi.keynodes index).freeRecordSize / slotSize fi.version20

/-- The free records from `head` on, by their next indexes. -/
def Linked (keynodes : Nat → Keynode) (head : Nat) : List Nat → Prop
  | [] => head % 2 ^ 24 = 0xFFFFFF ∧ isNullKeynodeIndex head = true
  | i :: chain => head = i ∧ i < 0xFFFFFF ∧ Linked keynodes (keynodes i).nextIndex.toNat chain

/-- `used` are the keynodes handed out, `chain` the free records in list order. -/
structure Inv (fi : FileInfo) (used chain : List Nat) : Prop where
  table : TableSize fi.version20 fi.curTotalKnSize
  linked : Linked fi.keynodes fi.firstFreeIndex chain
  used_nodup : used.Nodup
  used_valid : ∀ i ∈ used, ValidSlot fi.version20 fi.curTotalKnSize i ∧ i < 0xFFFFFF
  used_flag : ∀ i ∈ used, (fi.keynodes i).inUse = true
  free_flag : ∀ i ∈ chain, (fi.keynodes i).inUse = false
  free_nodes : ∀ i ∈ chain, 1 ≤ nodes fi i
  free_valid : ∀ i ∈ chain, ∀ j, i ≤ j → j < i + nodes fi i →
    ValidSlot fi.version20 fi.curTotalKnSize j
  free_used : ∀ i ∈ chain, ∀ u ∈ used, u < i ∨ i + nodes fi i ≤ u
  free_disjoint : chain.Pairwise fun i j => i + nodes fi i ≤ j ∨ j + nodes fi j ≤ i
  blocks : ∀ i, ValidSlot fi.version20 fi.curTotalKnSize i → blockNumber i < fi.keynodeBlockCount

theorem Linked.congr {f g : Nat → Keynode} {chain : List Nat} (h : ∀ i ∈ chain, f i = g i) :
    ∀ {head : Nat}, Linked f head chain → Linked g head chain := by
  induction chain with
  | nil =>
    intro head hl
    exact hl
  | cons i chain ih =>
    intro head hl
    obtain ⟨rfl, hlt, hl⟩ := hl
    refine ⟨rfl, hlt, ?_⟩
    rw [← h head List.mem_cons_self]
    exact ih (fun j hj => h j (List.mem_cons_of_mem head hj)) hl

theorem Linked.mem_lt {f : Nat → Keynode} {chain : List Nat} :
    ∀ {head : Nat}, Linked f head chain → ∀ i ∈ chain, i < 0xFFFFFF := by
  induction chain with
  | nil =>
    intro head _ i hi
    cases hi
  | cons j chain ih =>
    intro head hl i hi
    rcases List.mem_cons.mp hi with rfl | hi
    · exact hl.2.1
    · exact ih hl.2.2 i hi

@[simp] theorem setKeynode_self (fi : FileInfo) (i : Nat) (k : Keynode) :
    (fi.setKeynode i k).keynodes i = k := if_pos rfl

theorem setKeynode_ne (fi : FileInfo) {i j : Nat} (k : Keynode) (h : j ≠ i) :
    (fi.setKeynode i k).keynodes j = fi.keynodes j := if_neg h

theorem sizeofFileKeynode_eq (fi : FileInfo) : sizeofFileKeynode fi = slotSize fi.version20 := rfl

theorem slotSize_pos (v : Bool) : 0 < slotSize v := by
  cases v <;> decide

/-- `fi'` differs from `fi` in the keynodes `f` and `g` and the head of the free list only. -/
structure SameBut (fi fi' : FileInfo) (f g : Nat) : Prop where
  version20 : fi'.version20 = fi.version20
  size : fi'.curTotalKnSize = fi.curTotalKnSize
  count : fi'.keynodeBlockCount = fi.keynodeBlockCount
  keynodes : ∀ i, i ≠ f → i ≠ g → fi'.keynodes i = fi.keynodes i

theorem SameBut.nodes_eq {fi fi' : FileInfo} {f g : Nat} (h : SameBut fi fi' f g) {i : Nat}
    (hf : i ≠ f) (hg : i ≠ g) : nodes fi' i = nodes fi i := by
  unfold nodes
  rw [h.version20, h.keynodes i hf hg]

/-- A record of the free list has been taken out of it, its first slot is in use. -/
theorem Inv.drop {fi fi' : FileInfo} {used chain : List Nat} {f g : Nat}
    (h : Inv fi used (f :: chain)) (hs : SameBut fi fi' f g) (hg : f ≤ g ∧ g < f + nodes fi f)
    (hflag : (fi'.keynodes f).inUse = true) (hl : Linked fi'.keynodes fi'.firstFreeIndex chain) :
    Inv fi' (f :: used) chain := by
  obtain ⟨hdis, hchain⟩ := List.pairwise_cons.mp h.free_disjoint
  have hnode : ∀ i ∈ chain, i ≠ f ∧ i ≠ g := by
    intro i hi
    have hi1 := h.free_nodes i (List.mem_cons_of_mem f hi)
    have hid := hdis i hi
    omega
  have hused : ∀ u ∈ used, u ≠ f ∧ u ≠ g := by
    intro u hu
    have hud := h.free_used f List.mem_cons_self u hu
    omega
  have hn : ∀ i ∈ chain, nodes fi' i = nodes fi i := fun i hi =>
    hs.nodes_eq (hnode i hi).1 (hnode i hi).2
  have hfree : ∀ i ∈ chain, i ∈ f :: chain := fun i hi => List.mem_cons_of_mem f hi
  refine ⟨?_, hl, ?_, ?_, ?_, ?_, ?_, ?_, ?_, ?_, ?_⟩
  · rw [hs.version20, hs.size]
    exact h.table
  · refine List.nodup_cons.mpr ⟨fun hmem => (hused f hmem).1 rfl, h.used_nodup⟩
  · intro i hi
    rw [hs.version20, hs.size]
    rcases List.mem_cons.mp hi with rfl | hi
    · have hpos := h.free_nodes i List.mem_cons_self
      exact ⟨h.free_valid i List.mem_cons_self i (Nat.le_refl _) (by omega), h.linked.2.1⟩
    · exact h.used_valid i hi
  · intro i hi
    rcases List.mem_cons.mp hi with rfl | hi
    · exact hflag
    · rw [hs.keynodes i (hused i hi).1 (hused i hi).2]
      exact h.used_flag i hi
  · intro i hi
    rw [hs.keynodes i (hnode i hi).1 (hnode i hi).2]
    exact h.free_flag i (hfree i hi)
  · intro i hi
    rw [hn i hi]
    exact h.free_nodes i (hfree i hi)
  · intro i hi j hij hj
    rw [hs.version20, hs.size]
    exact h.free_valid i (hfree i hi) j hij (hn i hi ▸ hj)
  · intro i hi u hu
    rw [hn i hi]
    rcases List.mem_cons.mp hu with rfl | hu
    · have hid := hdis i hi
      have hpos := h.free_nodes u List.mem_cons_self
      omega
    · exact h.free_used i (hfree i hi) u hu
  · refine hchain.imp_of_mem fun {i j} hi hj hij => ?_
    rw [hn i hi, hn j hj]
    exact hij
  · intro i hi
    rw [hs.count]
    rw [hs.version20, hs.size] at hi
    exact h.blocks i hi

/-- A free record disjoint from everything else has been put in front. -/
theorem Inv.cons {fi : FileInfo} {used chain : List Nat} {g : Nat}
    (h : Inv fi used chain) (hl : Linked fi.keynodes g (g :: chain))
    (hflag : (fi.keynodes g).inUse = false) (hpos : 1 ≤ nodes fi g)
    (hvalid : ∀ j, g ≤ j → j < g + nodes fi g → ValidSlot fi.version20 fi.curTotalKnSize j)
    (hused : ∀ u ∈ used, u < g ∨ g + nodes fi g ≤ u)
    (hdis : ∀ i ∈ chain, g + nodes fi g ≤ i ∨ i + nodes fi i ≤ g) :
    Inv { fi with firstFreeIndex := g } used (g :: chain) where
  table := h.table
  linked := hl
  used_nodup := h.used_nodup
  used_valid := h.used_valid
  used_flag := h.used_flag
  free_flag := List.forall_mem_cons.mpr ⟨hflag, h.free_flag⟩
  free_nodes := List.forall_mem_cons.mpr ⟨hpos, h.free_nodes⟩
  free_valid := List.forall_mem_cons.mpr ⟨hvalid, h.free_valid⟩
  free_used := List.forall_mem_cons.mpr ⟨hused, h.free_used⟩
  free_disjoint := List.pairwise_cons.mpr ⟨hdis, h.free_disjoint⟩
  blocks := h.blocks

/-- Whatever the list was, it may be forgotten. -/
theorem Inv.forget {fi : FileInfo} {used chain : List Nat} {head : Nat} (h : Inv fi used chain)
    (hl : Linked fi.keynodes head []) : Inv { fi with firstFreeIndex := head } used [] where
  table := h.table
  linked := hl
  used_nodup := h.used_nodup
  used_valid := h.used_valid
  used_flag := h.used_flag
  free_flag := fun _ hi => absurd hi List.not_mem_nil
  free_nodes := fun _ hi => absurd hi List.not_mem_nil
  free_valid := fun _ hi => absurd hi List.not_mem_nil
  free_used := fun _ hi => absurd hi List.not_mem_nil
  free_disjoint := List.Pairwise.nil
  blocks := h.blocks

/-- Taking the first free record without splitting it. -/
theorem Inv.takeWhole {fi : FileInfo} {used chain : List Nat} {f : Nat} {k : Keynode}
    (h : Inv fi used (f :: chain)) (hk : k.inUse = true) :
    Inv ({ fi with firstFreeIndex := (fi.keynodes f).nextIndex.toNat }.setKeynode f k)
      (f :: used) chain := by
  have hpos := h.free_nodes f List.mem_cons_self
  have hs : SameBut fi
      ({ fi with firstFreeIndex := (fi.keynodes f).nextIndex.toNat }.setKeynode f k) f f :=
    ⟨rfl, rfl, rfl, fun i hi _ => setKeynode_ne _ k hi⟩
  refine h.drop hs ⟨(Nat.le_refl _), by omega⟩ (by rw [setKeynode_self]; exact hk) ?_
  obtain ⟨-, -, hl⟩ := h.linked
  refine Linked.congr (fun i hi => ?_) hl
  have hdis := (List.pairwise_cons.mp h.free_disjoint).1 i hi
  have hi1 := h.free_nodes i (List.mem_cons_of_mem f hi)
  exact (setKeynode_ne _ k (by omega)).symm

/-- Taking the first free record and leaving the rest of it free. -/
theorem Inv.takeSplit {fi : FileInfo} {used chain : List Nat} {f : Nat} {k tail : Keynode}
    (h : Inv fi used (f :: chain)) (hk : k.inUse = true)
    (hsize : (fi.keynodes f).freeRecordSize ≥ slotSize fi.version20 * 2)
    (htail : tail = ⟨(fi.keynodes f).nextIndex, false,
      (fi.keynodes f).freeRecordSize - slotSize fi.version20⟩) :
    ∃ chain', Inv
      (({ fi.setKeynode (f + 1) tail with firstFreeIndex := f + 1 } : FileInfo).setKeynode f k)
      (f :: used) chain' := by
  obtain ⟨hdis, -⟩ := List.pairwise_cons.mp h.free_disjoint
  obtain ⟨-, hf, hl⟩ := h.linked
  have hsub : nodes fi f = (fi.keynodes f).freeRecordSize / slotSize fi.version20 := rfl
  have hpos := slotSize_pos fi.version20
  have hn2 : 2 ≤ nodes fi f := (Nat.le_div_iff_mul_le hpos).mpr (by omega)
  -- the table without the rest of the record
  let fi' := ({ fi.setKeynode (f + 1) tail with
    firstFreeIndex := (fi.keynodes f).nextIndex.toNat } : FileInfo).setKeynode f k
  have hkey : ∀ i, i ≠ f → i ≠ f + 1 → fi'.keynodes i = fi.keynodes i := by
    intro i hi hi'
    exact (setKeynode_ne _ k hi).trans (setKeynode_ne fi tail hi')
  have hs : SameBut fi fi' f (f + 1) := ⟨rfl, rfl, rfl, hkey⟩
  have hchain : ∀ i ∈ chain, i ≠ f ∧ i ≠ f + 1 := by
    intro i hi
    have hid := hdis i hi
    have hi1 := h.free_nodes i (List.mem_cons_of_mem f hi)
    omega
  have hl' : Linked fi'.keynodes fi'.firstFreeIndex chain :=
    Linked.congr (fun i hi => (hkey i (hchain i hi).1 (hchain i hi).2).symm) hl
  have hdrop : Inv fi' (f :: used) chain :=
    h.drop hs ⟨by omega, by omega⟩ (by rw [setKeynode_self]; exact hk) hl'
  have hrest : fi'.keynodes (f + 1) = tail := by
    exact (setKeynode_ne _ k (by omega)).trans (setKeynode_self fi (f + 1) tail)
  have hnodes : nodes fi' (f + 1) = nodes fi f - 1 := by
    unfold nodes
    rw [hrest, hs.version20, htail]
    have hdiv := Nat.div_eq_sub_div hpos
      (show slotSize fi.version20 ≤ (fi.keynodes f).freeRecordSize by omega)
    exact (Nat.sub_eq_of_eq_add hdiv).symm
  by_cases hlt : f + 1 < 0xFFFFFF
  · have hcons : Inv { fi' with firstFreeIndex := f + 1 } (f :: used) ((f + 1) :: chain) := by
      apply hdrop.cons
      · refine ⟨rfl, hlt, ?_⟩
        rw [hrest, htail]
        exact hl'
      · rw [hrest, htail]
      · omega
      · intro j hj hj'
        exact h.free_valid f List.mem_cons_self j (by omega) (by omega)
      · intro u hu
        rcases List.mem_cons.mp hu with rfl | hu
        · omega
        · have hud := h.free_used f List.mem_cons_self u hu
          omega
      · intro i hi
        have hid := hdis i hi
        rw [hs.nodes_eq (hchain i hi).1 (hchain i hi).2]
        omega
    exact ⟨_, hcons⟩
  · have hnone : Inv { fi' with firstFreeIndex := f + 1 } (f :: used) [] := by
      refine hdrop.forget ⟨by omega, ?_⟩
      simp only [isNullKeynodeIndex, decide_eq_true_iff]
      omega
    exact ⟨_, hnone⟩

/-- The free list after a keynode has been taken from its head. -/
theorem Inv.takeFree {fi : FileInfo} {used chain : List Nat} {f : Nat} (env : AllocEnv)
    (h : Inv fi used (f :: chain)) : ∃ chain', Inv (takeFree fi f env) (f :: used) chain' := by
  unfold SdkTools.Registry.takeFree
  simp only
  split
  · rename_i hsplit
    rw [Bool.and_eq_true, decide_eq_true_iff] at hsplit
    exact h.takeSplit rfl hsplit.1 rfl
  · exact ⟨chain, h.takeWhole rfl⟩

end SdkTools.Registry
