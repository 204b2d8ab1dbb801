import SdkTools.Registry.KeynodeInvariant

/-!
# Growing the keynode table

The table grows by one page, the new free record stands for the slots of that
page, and no index of it was valid before.
-/

namespace SdkTools.Registry

set_option autoImplicit false

theorem ValidSlot.mono {v : Bool} {s t i : Nat} (h : ValidSlot v s i) (hst : s ≤ t) :
    ValidSlot v t i := by
  obtain ⟨hi, h⟩ := h
  refine ⟨hi, ?_⟩
  cases v with
  | true =>
    simp only [if_true] at h ⊢
    omega
  | false =>
    simp only [Bool.false_eq_true, if_false] at h ⊢
    refine ⟨h.1, ?_⟩
    have h2 := h.2
    by_cases hlt : i < 292
    · rw [if_pos hlt] at h2 ⊢
      omega
    · rw [if_neg hlt] at h2 ⊢
      omega

/-- What growing from `size` to `size'` with `n` new slots from `first` on gives. -/
structure Grown (v : Bool) (size size' first n : Nat) : Prop where
  table : TableSize v size'
  le : size ≤ size'
  old : ∀ j, ValidSlot v size j → j < first
  new : ∀ j, first ≤ j → j < first + n → ValidSlot v size' j
  block : ∀ j, ValidSlot v size' j → blockNumber j ≤ blockNumber first

theorem grown_compact (m : Nat) (h : 256 * m < 0xFFFFFF) :
    Grown true (4096 * m) (4096 * m + 4096) (256 * m) 256 where
  table := by
    simp only [TableSize, if_true]
    omega
  le := by omega
  old := by
    intro j hj
    have hj := hj.2
    simp only [if_true] at hj
    omega
  new := by
    intro j hlo hhi
    refine ⟨by omega, ?_⟩
    simp only [if_true]
    omega
  block := by
    intro j hj
    have hj := hj.2
    simp only [if_true] at hj
    simp only [blockNumber, keynodesPerBlock]
    omega

theorem grown_first : Grown false 32 4064 1 144 where
  table := ⟨by omega, Or.inr (Or.inl rfl)⟩
  le := by omega
  old := by
    intro j hj
    have hj := hj.2
    simp only [Bool.false_eq_true, if_false] at hj
    split at hj <;> omega
  new := by
    intro j hlo hhi
    refine ⟨by omega, ?_⟩
    simp only [Bool.false_eq_true, if_false]
    rw [if_pos (by omega)]
    omega
  block := by
    intro j hj
    have hj := hj.2
    simp only [Bool.false_eq_true, if_false] at hj
    simp only [blockNumber, keynodesPerBlock]
    split at hj <;> omega

theorem grown_second : Grown false 4064 8192 145 147 where
  table := ⟨by omega, Or.inr (Or.inr ⟨Nat.le_refl _, rfl⟩)⟩
  le := by omega
  old := by
    intro j hj
    have hj := hj.2
    simp only [Bool.false_eq_true, if_false] at hj
    split at hj <;> omega
  new := by
    intro j hlo hhi
    refine ⟨by omega, ?_⟩
    simp only [Bool.false_eq_true, if_false]
    rw [if_pos (by omega)]
    omega
  block := by
    intro j hj
    have hj := hj.2
    simp only [Bool.false_eq_true, if_false] at hj
    simp only [blockNumber, keynodesPerBlock]
    split at hj <;> omega

/-- Seven pages hold the slots of one block. -/
theorem page_block (p j : Nat) (h : j * 28 + 27 < 4096 * p + 4096) :
    j / 1024 ≤ 4096 * p / 28 / 1024 := by
  have hj : j < 1024 * (p / 7 + 1) := by omega
  have hp : 1024 * (p / 7) ≤ 4096 * p / 28 := by omega
  omega

theorem grown_page (p : Nat) (hp : 2 ≤ p) (h : 4096 * p / 28 < 0xFFFFFF) :
    Grown false (4096 * p) (4096 * p + 4096) (4096 * p / 28) 146 where
  table := by
    simp only [TableSize, Bool.false_eq_true, if_false]
    omega
  le := by omega
  old := by
    intro j hj
    have hj := hj.2
    simp only [Bool.false_eq_true, if_false] at hj
    split at hj <;> omega
  new := by
    intro j hlo hhi
    have hq : (j * 28 + 27) / 4096 = p := page_eq p (by omega) (by omega)
    have hp : p ≤ 114687 := by omega
    refine ⟨by omega, ?_⟩
    simp only [Bool.false_eq_true, if_false]
    rw [if_neg (by omega)]
    omega
  block := by
    intro j hj
    have hj := hj.2
    simp only [Bool.false_eq_true, if_false] at hj
    simp only [blockNumber, keynodesPerBlock]
    by_cases hlt : j < 292
    · omega
    · rw [if_neg hlt] at hj
      exact page_block p j (by omega)

theorem roundUp_of_dvd {m : Nat} (h : 4096 * m < 2 ^ 32) :
    roundUp (4096 * m) pageSize = 4096 * m := by
  simp only [roundUp, pageSize]
  rw [Nat.mod_eq_of_lt (by omega)]
  omega

theorem rgOffsetToIndex_of_ne {offset : Nat} (h : offset ≠ REG_NULL) :
    rgOffsetToIndex offset = offset / 28 := if_neg h

theorem extension_compact {fi : FileInfo} {m : Nat} (hv : fi.version20 = true)
    (hm : fi.curTotalKnSize = 4096 * m) (hlt : 4096 * m < 2 ^ 32) :
    extension fi = ⟨256 * m, 4096, 0⟩ := by
  have hd : 4096 * m / 16 = 256 * m := by omega
  simp only [extension, hv, if_true, hm]
  rw [roundUp_of_dvd hlt, sizeofKeynode, hd]
  rfl

theorem extension_first {fi : FileInfo} (hv : fi.version20 = false)
    (h : fi.curTotalKnSize = 32) : extension fi = ⟨1, 4032, 0⟩ := by
  simp only [extension, hv, Bool.false_eq_true, if_false, h, sizeofKeynodeHeader, if_true, pageSize]
  rfl

theorem extension_second {fi : FileInfo} (hv : fi.version20 = false)
    (h : fi.curTotalKnSize = 4064) : extension fi = ⟨145, 4128, 0⟩ := by
  simp only [extension, hv, Bool.false_eq_true, if_false, h]
  rfl

theorem extension_page {fi : FileInfo} {p : Nat} (hv : fi.version20 = false)
    (h : fi.curTotalKnSize = 4096 * p) (hp : 2 ≤ p) (hlt : 4096 * p < 2 ^ 32) :
    extension fi = ⟨4096 * p / 28, 4096, 0⟩ := by
  have h32 : ¬ 4096 * p = sizeofKeynodeHeader := by
    simp only [sizeofKeynodeHeader]
    omega
  have hbranch : ¬ (0 > sizeofW95Keynode ∨ 4096 * p = pageSize) := by
    simp only [sizeofW95Keynode, pageSize]
    omega
  have hnull : 4096 * p ≠ REG_NULL := by
    simp only [REG_NULL]
    omega
  have hround := roundUp_of_dvd hlt
  simp only [extension, hv, Bool.false_eq_true, if_false, h]
  rw [if_neg h32, hround, Nat.sub_self, if_neg hbranch, rgOffsetToIndex_of_ne hnull]
  rfl

/-- The free record of an extension stands for new slots only. -/
structure Extended (fi : FileInfo) : Prop where
  room : slotSize fi.version20 ≤ (extension fi).freeRecordSize
  grown : Grown fi.version20 fi.curTotalKnSize (extend fi).curTotalKnSize
    (extension fi).freeKeynodeIndex ((extension fi).freeRecordSize / slotSize fi.version20)

theorem Extended.of_eq {fi : FileInfo} {v : Bool} {size f bytes : Nat}
    (hx : extension fi = ⟨f, bytes, 0⟩) (hv : fi.version20 = v) (hs : fi.curTotalKnSize = size)
    (hlt : size + bytes < 2 ^ 32) (hroom : slotSize v ≤ bytes)
    (hg : Grown v size (size + bytes) f (bytes / slotSize v)) : Extended fi := by
  have hsize : (extend fi).curTotalKnSize = size + bytes := by
    simp only [extend, hx, hs, Nat.add_zero]
    exact Nat.mod_eq_of_lt hlt
  constructor
  · rw [hx, hv]
    exact hroom
  · rw [hsize, hx, hv, hs]
    exact hg

theorem extended_of_table {fi : FileInfo} (ht : TableSize fi.version20 fi.curTotalKnSize)
    (hf : (extension fi).freeKeynodeIndex < 0xFFFFFF) : Extended fi := by
  obtain ⟨hlt, ht⟩ := ht
  cases hv : fi.version20 with
  | true =>
    simp only [hv, if_true] at ht
    obtain ⟨m, hm⟩ := Nat.dvd_of_mod_eq_zero ht
    have hx := extension_compact hv hm (by omega)
    have hf : 256 * m < 0xFFFFFF := by simpa only [hx] using hf
    exact .of_eq hx hv hm (by omega) (by decide) (grown_compact m hf)
  | false =>
    simp only [hv, Bool.false_eq_true, if_false] at ht
    rcases ht with h | h | ⟨hge, h⟩
    · exact .of_eq (extension_first hv h) hv h (by omega) (by decide) grown_first
    · exact .of_eq (extension_second hv h) hv h (by omega) (by decide) grown_second
    · obtain ⟨p, hp⟩ := Nat.dvd_of_mod_eq_zero h
      have hp2 : 2 ≤ p := by omega
      have hx := extension_page hv hp hp2 (by omega)
      have hf : 4096 * p / 28 < 0xFFFFFF := by simpa only [hx] using hf
      exact .of_eq hx hv hp (by omega) (by decide) (grown_page p hp2 hf)

end SdkTools.Registry
