import SdkTools.Imagehlp.ChkSum

/-!
# When the checksum is the one it should be

The sum of `ChkSum` is exact; the two stored words are subtracted with borrows, which can
give either representative of zero, and the last byte is added in a `USHORT`, which loses
a carry. The conditions say for which files that matters.
-/

namespace SdkTools.Imagehlp

open Lib

set_option autoImplicit false

/-! ## Words of a file -/

/-- What a byte counts for in the word it is in. -/
def weight (i : Nat) : Nat := if i % 2 = 0 then 1 else 256

theorem wordsOf_set (bytes : List UInt8) (i : Nat) (x : UInt8) :
    (wordsOf (bytes.set i x)).sum + weight i * (bytes.getD i 0).toNat =
      (wordsOf bytes).sum + if i < bytes.length then weight i * x.toNat else 0 := by
  induction bytes using wordsOf.induct generalizing i with
  | case1 => simp [wordsOf]
  | case2 b =>
    cases i with
    | zero => simp [wordsOf, weight, Nat.add_comm]
    | succ i => simp [wordsOf]
  | case3 b c bytes ih =>
    match i with
    | 0 =>
      simp only [List.set_cons_zero, wordsOf, List.sum_cons, List.getD_cons_zero, weight,
        List.length_cons, Nat.zero_mod, if_true]
      rw [if_pos (by omega)]
      omega
    | 1 =>
      simp only [List.set_cons_succ, List.set_cons_zero, wordsOf, List.sum_cons,
        List.getD_cons_succ, List.getD_cons_zero, weight, List.length_cons]
      rw [if_neg (by omega), if_pos (by omega)]
      omega
    | i + 2 =>
      have hrest := ih i
      have hweight : weight (i + 2) = weight i := by
        unfold weight
        rw [Nat.add_mod_right]
      simp only [List.set_cons_succ, wordsOf, List.sum_cons, List.getD_cons_succ, hweight,
        List.length_cons, Nat.add_lt_add_iff_right] at hrest ⊢
      omega

theorem wordsOf_lt (bytes : List UInt8) : ∀ w ∈ wordsOf bytes, w < 65536 := by
  induction bytes using wordsOf.induct with
  | case1 => exact nofun
  | case2 b =>
    intro w hw
    have hlt := b.toNat_lt
    rw [wordsOf, List.mem_singleton] at hw
    omega
  | case3 b c bytes ih =>
    have hb := b.toNat_lt
    have hc := c.toNat_lt
    exact List.forall_mem_cons.mpr ⟨by omega, ih⟩

/-- The last byte of a list of odd length. -/
def oddByte (bytes : List UInt8) : Nat :=
  if bytes.length % 2 = 1 then (bytes.getD (bytes.length - 1) 0).toNat else 0

theorem wordsOf_sum (mem : Memory) (a : Nat) (bytes : List UInt8)
    (h : ∀ i, i < bytes.length → mem (a + i) = bytes.getD i 0) :
    (wordsOf bytes).sum = wordSum mem a (bytes.length / 2) + oddByte bytes := by
  induction bytes using wordsOf.induct generalizing a with
  | case1 => rfl
  | case2 b => simp [wordsOf, wordSum, oddByte]
  | case3 b c bytes ih =>
    have hb : mem a = b := h 0 (Nat.zero_lt_succ _)
    have hc : mem (a + 1) = c := h 1 (by simp)
    have hrest := ih (a + 2) fun i hi => by
      have hi2 := h (i + 2) (by simpa using hi)
      rw [List.getD_cons_succ, List.getD_cons_succ] at hi2
      rw [← hi2, Nat.add_assoc, Nat.add_comm 2 i]
    have hhalf : (b :: c :: bytes).length / 2 = bytes.length / 2 + 1 := by
      rw [List.length_cons, List.length_cons]
      omega
    have hodd : oddByte (b :: c :: bytes) = oddByte bytes := by
      unfold oddByte
      rw [List.length_cons, List.length_cons]
      split
      · rename_i hlen
        obtain ⟨n, hn⟩ : ∃ n, bytes.length = n + 1 := ⟨bytes.length - 1, by omega⟩
        rw [if_pos (by omega), hn]
        rfl
      · rename_i hlen
        rw [if_neg (by omega)]
    rw [hhalf, hodd, wordsOf, List.sum_cons, wordSum, hrest, word, hb, hc, Nat.add_assoc,
      Nat.add_assoc, Nat.add_assoc]

namespace MappedFile

variable (file : MappedFile) (baseAddress offset value i : Nat)

theorem view_add : file.view baseAddress (baseAddress + i) = file.byte i := by
  rw [view, Nat.add_sub_cancel_left]

/-- The word at an offset, which need not be even. -/
def wordAt : Nat := (file.byte i).toNat + 256 * (file.byte (i + 1)).toNat

theorem word_view : word (file.view baseAddress) (baseAddress + i) = file.wordAt i := by
  rw [word, Nat.add_assoc, view_add, view_add, wordAt]

theorem wordAt_lt : file.wordAt i < 65536 := by
  have hlow := (file.byte i).toNat_lt
  have hhigh := (file.byte (i + 1)).toNat_lt
  unfold wordAt
  omega

/-- The sum of the words before an odd last byte. -/
def wholeWords : Nat := wordSum (file.view 0) 0 (file.bytes.length / 2)

def lastByte : Nat := oddByte file.bytes

theorem wordsOf_sum_bytes :
    (wordsOf file.bytes).sum =
      wordSum (file.view baseAddress) baseAddress (file.bytes.length / 2) + file.lastByte :=
  wordsOf_sum _ _ _ fun i _ => file.view_add baseAddress i

theorem wholeWords_eq :
    wordSum (file.view baseAddress) baseAddress (file.bytes.length / 2) = file.wholeWords := by
  have hbase := file.wordsOf_sum_bytes baseAddress
  have hzero := file.wordsOf_sum_bytes 0
  unfold wholeWords
  omega

theorem lastByte_lt : file.lastByte < 256 := by
  have hlt := (file.bytes.getD (file.bytes.length - 1) 0).toNat_lt
  unfold lastByte oddByte
  split <;> omega

/-- What the four bytes at an offset count for in the sum. -/
def fieldWeight : Nat :=
  weight offset * (file.byte offset).toNat + weight (offset + 1) * (file.byte (offset + 1)).toNat +
    weight (offset + 2) * (file.byte (offset + 2)).toNat +
    weight (offset + 3) * (file.byte (offset + 3)).toNat

theorem store_length : (file.store offset value).bytes.length = file.bytes.length := by
  simp only [store, List.length_set]

theorem byte_store_of_ne (h : i < offset ∨ offset + 4 ≤ i) :
    (file.store offset value).byte i = file.byte i := by
  unfold byte store
  rw [List.getD_eq_getElem?_getD, List.getD_eq_getElem?_getD, List.getElem?_set_ne (by omega),
    List.getElem?_set_ne (by omega), List.getElem?_set_ne (by omega),
    List.getElem?_set_ne (by omega)]

theorem byte_store (k : Nat) (hk : k < 4) (h : offset + 4 ≤ file.bytes.length) :
    (file.store offset value).byte (offset + k) = UInt8.ofNat (value / 2 ^ (8 * k)) := by
  unfold byte store
  rw [List.getD_eq_getElem?_getD]
  match k, hk with
  | 0, _ =>
    rw [List.getElem?_set_ne (by omega), List.getElem?_set_ne (by omega),
      List.getElem?_set_ne (by omega), Nat.add_zero, List.getElem?_set_self (by omega)]
    simp
  | 1, _ =>
    rw [List.getElem?_set_ne (by omega), List.getElem?_set_ne (by omega),
      List.getElem?_set_self (by simp only [List.length_set]; omega)]
    rfl
  | 2, _ =>
    rw [List.getElem?_set_ne (by omega),
      List.getElem?_set_self (by simp only [List.length_set]; omega)]
    rfl
  | 3, _ =>
    rw [List.getElem?_set_self (by simp only [List.length_set]; omega)]
    rfl

theorem store_store (x y : Nat) : (file.store offset x).store offset y = file.store offset y := by
  apply MappedFile.ext
  apply List.ext_getElem?
  intro i
  simp only [store, List.getElem?_set, List.length_set]
  grind

/-- A file without the field: what the field counted for is gone. -/
theorem wordsOf_clear :
    (wordsOf (file.store offset 0).bytes).sum + file.fieldWeight offset =
      (wordsOf file.bytes).sum := by
  have hzero (bytes : List UInt8) (i : Nat) : (wordsOf (bytes.set i 0)).sum +
      weight i * (bytes.getD i 0).toNat = (wordsOf bytes).sum := by
    have hset := wordsOf_set bytes i 0
    rwa [UInt8.toNat_zero, Nat.mul_zero, ite_self, Nat.add_zero] at hset
  have hne (bytes : List UInt8) {i j : Nat} (h : i ≠ j) :
      (bytes.set i 0).getD j 0 = bytes.getD j 0 := by
    rw [List.getD_eq_getElem?_getD, List.getElem?_set_ne h, List.getD_eq_getElem?_getD]
  have h0 := hzero file.bytes offset
  have h1 := hzero (file.bytes.set offset 0) (offset + 1)
  have h2 := hzero ((file.bytes.set offset 0).set (offset + 1) 0) (offset + 2)
  have h3 := hzero (((file.bytes.set offset 0).set (offset + 1) 0).set (offset + 2) 0) (offset + 3)
  rw [hne _ (by omega)] at h1
  rw [hne _ (by omega), hne _ (by omega)] at h2
  rw [hne _ (by omega), hne _ (by omega), hne _ (by omega)] at h3
  show (wordsOf ((((file.bytes.set offset 0).set (offset + 1) 0).set (offset + 2) 0).set
    (offset + 3) 0)).sum + _ = _
  unfold fieldWeight byte
  omega

/-- The words of the field as the code reads them. -/
def fieldWords : Nat := file.wordAt offset + file.wordAt (offset + 2)

/-- The remainder of the whole words less the two words of the field. -/
def remainder : Nat := (file.wholeWords + 131070 - file.fieldWords offset) % 65535

theorem remainder_eq_wordsOf : file.remainder offset =
    ((wordsOf file.bytes).sum - file.lastByte + 131070 - file.fieldWords offset) % 65535 := by
  rw [file.wordsOf_sum_bytes 0, file.wholeWords_eq, Nat.add_sub_cancel, remainder]

theorem fieldWords_le : file.fieldWords offset ≤ 131070 := by
  have hlow := file.wordAt_lt offset
  have hhigh := file.wordAt_lt (offset + 2)
  unfold fieldWords
  omega

theorem remainder_modEq :
    file.remainder offset + file.fieldWords offset ≡ file.wholeWords [MOD 65535] := by
  have hle := file.fieldWords_le offset
  unfold remainder Nat.ModEq
  rw [Nat.mod_add_mod, Nat.sub_add_cancel (by omega)]
  exact Nat.add_mul_mod_self_left file.wholeWords 65535 2

/-- The sum of a file with a DOS signature is not empty, with or without the field. -/
theorem wholeWords_pos (hdos : file.byte 0 ≠ 0) (hlen : 2 ≤ file.bytes.length) :
    0 < file.wholeWords := by
  obtain ⟨n, hn⟩ : ∃ n, file.bytes.length / 2 = n + 1 := ⟨file.bytes.length / 2 - 1, by omega⟩
  have hfirst : 0 < (file.byte 0).toNat :=
    Nat.pos_of_ne_zero fun h => hdos (UInt8.toNat_inj.mp h)
  have hword := file.word_view 0 0
  rw [Nat.zero_add] at hword
  unfold wordAt at hword
  unfold wholeWords
  rw [hn, wordSum, hword]
  omega

end MappedFile

/-! ## The sum of the code -/

/-- A word subtracted with a borrow. -/
theorem subtractWord_spec {partialSum adjust : Nat} (hp : partialSum < 65536)
    (ha : adjust < 65536) :
    subtractWord partialSum adjust < 65536 ∧
      subtractWord partialSum adjust + adjust ≡ partialSum [MOD 65535] ∧
      (subtractWord partialSum adjust = 65535 ↔ partialSum = 65535 ∧ adjust = 0) := by
  have hcases : subtractWord partialSum adjust =
      if partialSum < adjust then partialSum + 65535 - adjust else partialSum - adjust := by
    unfold subtractWord
    dsimp only
    split <;> omega
  rw [hcases, Nat.ModEq]
  split
  · refine ⟨by omega, by omega, by omega⟩
  · refine ⟨by omega, by omega, by omega⟩

theorem addLastByte_spec (file : MappedFile) {partialSum : Nat} (h : partialSum < 65536) :
    addLastByte file partialSum = (partialSum + file.lastByte) % 65536 := by
  unfold addLastByte MappedFile.lastByte oddByte MappedFile.byte
  dsimp only
  split <;> omega

/-- The representative of the remainder the code comes to: zero is 65535 only where the
field is zero. -/
def reduced (file : MappedFile) (offset : Nat) : Nat :=
  if file.remainder offset ≠ 0 then file.remainder offset
  else if file.fieldWords offset = 0 then 65535 else 0

theorem reduced_lt (file : MappedFile) (offset : Nat) : reduced file offset < 65536 := by
  unfold reduced MappedFile.remainder
  split
  · omega
  · split <;> omega

theorem checkSumField_spec {find : MappedFile → Option Nat} (baseAddress : Nat)
    {file : MappedFile} {ntHeaders : Nat} (h : HasHeader find file ntHeaders) :
    checkSumField (file.view baseAddress) (baseAddress + ntHeaders) =
      some (baseAddress + (ntHeaders + 88)) := by
  obtain ⟨hlow, hhigh⟩ := h.magic
  have hword := file.word_view baseAddress (ntHeaders + 24)
  rw [← Nat.add_assoc, MappedFile.wordAt, hlow] at hword
  unfold checkSumField
  rw [hword]
  cases hhigh with
  | inl h32 =>
    rw [h32]
    rfl
  | inr h64 =>
    rw [h64]
    rfl

theorem HasHeader.wholeWords_pos {find : MappedFile → Option Nat} (hfind : NtHeaderFinder find)
    {file : MappedFile} {ntHeaders : Nat} (h : HasHeader find file ntHeaders) :
    0 < file.wholeWords := by
  obtain ⟨hm, hz⟩ := hfind.dos file ntHeaders h.found
  apply file.wholeWords_pos
  · rw [hm]
    decide
  · apply Nat.lt_of_not_le
    intro hle
    rw [MappedFile.byte, List.getD_eq_getElem?_getD, List.getElem?_eq_none hle] at hz
    revert hz
    decide

/-- Both words subtracted from the sum of the whole words. -/
theorem subtract_reduced {file : MappedFile} {offset partialSum : Nat}
    (hsum : Stands 65535 partialSum file.wholeWords) (hlt : partialSum < 65536)
    (hpos : 0 < file.wholeWords) :
    subtractWord (subtractWord partialSum (file.wordAt offset)) (file.wordAt (offset + 2)) =
      reduced file offset := by
  obtain ⟨hflt, hfmod, hftop⟩ := subtractWord_spec hlt (file.wordAt_lt offset)
  obtain ⟨hslt, hsmod, hstop⟩ := subtractWord_spec hflt (file.wordAt_lt (offset + 2))
  have hresult : subtractWord (subtractWord partialSum (file.wordAt offset))
      (file.wordAt (offset + 2)) ≡ file.remainder offset [MOD 65535] := by
    apply Nat.ModEq.add_right_cancel' (file.fieldWords offset)
    refine Nat.ModEq.trans ?_ (file.remainder_modEq offset).symm
    rw [MappedFile.fieldWords, Nat.add_comm (file.wordAt offset), ← Nat.add_assoc]
    exact (hsmod.add_right _).trans (hfmod.trans hsum.modEq)
  have hzero : file.remainder offset = 0 → file.fieldWords offset = 0 → partialSum = 65535 := by
    intro hr hw
    have hmod := (file.remainder_modEq offset).trans hsum.modEq.symm
    rw [hr, hw] at hmod
    have hne : partialSum ≠ 0 := fun h => Nat.ne_of_gt hpos (hsum.zero.mp h)
    unfold Nat.ModEq at hmod
    omega
  have hr : file.remainder offset < 65535 := Nat.mod_lt _ (by omega)
  unfold reduced
  unfold Nat.ModEq at hresult
  clear hfmod hsmod hsum
  unfold MappedFile.fieldWords at hzero ⊢
  split
  · omega
  · rename_i hne
    have hr0 := Decidable.not_not.mp hne
    split
    · rename_i hw
      have hp := hzero hr0 hw
      rw [hstop, hftop]
      omega
    · omega

/-- `CheckSumMappedFile` on a file with a header. -/
theorem checkSumMappedFile_spec {find : MappedFile → Option Nat} (hfind : NtHeaderFinder find)
    (baseAddress : Nat) {file : MappedFile} {ntHeaders : Nat}
    (h : HasHeader find file ntHeaders) :
    checkSumMappedFile find baseAddress file =
      ⟨some ntHeaders, file.wordAt (ntHeaders + 88) + 65536 * file.wordAt (ntHeaders + 88 + 2),
        ((reduced file (ntHeaders + 88) + file.lastByte) % 65536 + file.bytes.length) % 2 ^ 32⟩ := by
  have hlen := file.length_lt
  obtain ⟨hsum, hlt⟩ := chkSum_stands (file.view baseAddress) 0 baseAddress
    (file.bytes.length / 2) (by omega) (by omega)
  rw [Nat.zero_add, file.wholeWords_eq] at hsum
  have hlow := file.word_view baseAddress (ntHeaders + 88)
  have hhigh := file.word_view baseAddress (ntHeaders + 88 + 2)
  rw [← Nat.add_assoc] at hhigh
  have hreduced := @subtract_reduced file (ntHeaders + 88) _ hsum hlt (h.wholeWords_pos hfind)
  unfold checkSumMappedFile
  simp only [h.found, checkSumField_spec baseAddress h, if_neg h.ne_zero, dword, hlow, hhigh,
    hreduced, addLastByte_spec file (reduced_lt file (ntHeaders + 88))]

/-! ## The law -/

/-- At an odd offset the code reads the words of the field the other way round than they
stand in the file. -/
def Balanced (file : MappedFile) (offset : Nat) : Prop :=
  offset % 2 = 1 →
    ((file.byte offset).toNat + (file.byte (offset + 2)).toNat) % 257 =
      ((file.byte (offset + 1)).toNat + (file.byte (offset + 3)).toNat) % 257

/-- The condition for the sum: no carry is lost with the last byte, and a sum of zero has
the right representative. -/
def SumExact (file : MappedFile) (offset : Nat) : Prop :=
  Balanced file offset ∧
    if file.remainder offset ≠ 0 then file.remainder offset + file.lastByte ≤ 65535
    else (file.fieldWords offset = 0 ↔ file.lastByte = 0)

theorem SumExact.carry {file : MappedFile} {offset : Nat} (h : SumExact file offset)
    (hne : file.remainder offset ≠ 0) : file.remainder offset + file.lastByte ≤ 65535 := by
  have hsum := h.2
  rwa [if_pos hne] at hsum

theorem fieldWeight_even {file : MappedFile} {offset : Nat} (h : offset % 2 = 0) :
    file.fieldWeight offset = file.fieldWords offset := by
  unfold MappedFile.fieldWeight MappedFile.fieldWords MappedFile.wordAt weight
  rw [if_pos h, if_neg (by omega), if_pos (by omega), if_neg (by omega), Nat.add_assoc offset 2 1]
  omega

theorem fieldWeight_odd {file : MappedFile} {offset : Nat} (h : offset % 2 = 1) :
    file.fieldWeight offset =
      256 * (file.byte offset).toNat + (file.byte (offset + 1)).toNat +
        256 * (file.byte (offset + 2)).toNat + (file.byte (offset + 3)).toNat := by
  unfold MappedFile.fieldWeight weight
  rw [if_neg (by omega), if_pos (by omega), if_neg (by omega), if_pos (by omega)]
  omega

/-- Modulo 255 the order of the bytes does not matter; modulo 65535 it does. -/
theorem fieldWeight_mod (file : MappedFile) (offset : Nat) :
    file.fieldWeight offset % 255 = file.fieldWords offset % 255 ∧
      (file.fieldWeight offset % 65535 = file.fieldWords offset % 65535 ↔
        Balanced file offset) := by
  unfold Balanced
  cases Nat.mod_two_eq_zero_or_one offset with
  | inl heven =>
    rw [fieldWeight_even heven]
    exact ⟨rfl, fun _ hodd => by omega, fun _ => rfl⟩
  | inr hodd =>
    rw [fieldWeight_odd hodd]
    unfold MappedFile.fieldWords MappedFile.wordAt
    rw [Nat.add_assoc offset 2 1]
    have h0 := (file.byte offset).toNat_lt
    have h1 := (file.byte (offset + 1)).toNat_lt
    have h2 := (file.byte (offset + 2)).toNat_lt
    have h3 := (file.byte (offset + 3)).toNat_lt
    generalize (file.byte offset).toNat = b0 at *
    generalize (file.byte (offset + 1)).toNat = b1 at *
    generalize (file.byte (offset + 2)).toNat = b2 at *
    generalize (file.byte (offset + (2 + 1))).toNat = b3 at *
    refine ⟨by omega, fun heq _ => by omega, fun hbal => ?_⟩
    have heq := hbal hodd
    omega

/-- The header stays where it is when the field changes. -/
theorem HasHeader.store {find : MappedFile → Option Nat} (hfind : NtHeaderFinder find)
    {file : MappedFile} {ntHeaders : Nat} (h : HasHeader find file ntHeaders) (value : Nat) :
    HasHeader find (file.store (ntHeaders + 88) value) ntHeaders := by
  have hne := Nat.pos_of_ne_zero h.ne_zero
  refine ⟨?_, h.ne_zero, ?_⟩
  · apply hfind.reads file _ ntHeaders h.found
    intro i hi
    exact file.byte_store_of_ne _ _ _ (by omega)
  · rw [file.byte_store_of_ne _ _ _ (by omega), file.byte_store_of_ne _ _ _ (by omega)]
    exact h.magic

/-- The sum of a remainder and the last byte against the sum `E` it should be, which is not
zero and which has the same remainder modulo 255. -/
theorem sum_eq_iff {r b A E : Nat} (hr : r < 65535) (hb : b < 256) (hpos : 0 < E)
    (hlt : E < 65536) (h255 : E % 255 = (r + b) % 255) :
    ((if r ≠ 0 then r else if A = 0 then 65535 else 0) + b) % 65536 = E ↔
      E % 65535 = (r + b) % 65535 ∧ if r ≠ 0 then r + b ≤ 65535 else (A = 0 ↔ b = 0) := by
  by_cases hzero : r = 0
  · subst hzero
    rw [if_neg (not_not.mpr rfl), if_neg (not_not.mpr rfl), Nat.zero_add] at *
    by_cases hA : A = 0
    · rw [if_pos hA]
      omega
    · rw [if_neg hA]
      omega
  · rw [if_pos hzero, if_pos hzero]
    by_cases hcarry : r + b ≤ 65535
    · rw [Nat.mod_eq_of_lt (by omega)]
      omega
    · have hmod : (r + b) % 65536 = r + b - 65536 := by omega
      rw [hmod]
      omega

theorem checkSum_eq_iff {find : MappedFile → Option Nat} (hfind : NtHeaderFinder find)
    (baseAddress : Nat) {file : MappedFile} {ntHeaders : Nat}
    (h : HasHeader find file ntHeaders) :
    (checkSumMappedFile find baseAddress file).checkSum = imageCheckSum file (ntHeaders + 88) ↔
      SumExact file (ntHeaders + 88) := by
  have hstands := onesSum_stands base16 (wordsOf (file.store (ntHeaders + 88) 0).bytes)
  have hlt := onesSum_lt (B := 65536) (by omega) _
    (wordsOf_lt (file.store (ntHeaders + 88) 0).bytes)
  have hclear := file.wordsOf_clear (ntHeaders + 88)
  have hpos : 0 < onesSum 65536 (wordsOf (file.store (ntHeaders + 88) 0).bytes) := by
    have hwhole := (h.store hfind 0).wholeWords_pos hfind
    have hsum := (file.store (ntHeaders + 88) 0).wordsOf_sum_bytes 0
    rw [MappedFile.wholeWords_eq] at hsum
    apply Nat.pos_of_ne_zero
    intro hE
    have hW := hstands.zero.mp hE
    omega
  rw [file.wordsOf_sum_bytes 0, file.wholeWords_eq] at hclear
  obtain ⟨hmod255, hmod⟩ := fieldWeight_mod file (ntHeaders + 88)
  -- The sum without the field, and what the field counted for, against the remainder.
  have hcross : onesSum 65536 (wordsOf (file.store (ntHeaders + 88) 0).bytes) +
      file.fieldWeight (ntHeaders + 88) ≡ file.remainder (ntHeaders + 88) + file.lastByte +
        file.fieldWords (ntHeaders + 88) [MOD 65535] := by
    refine (hstands.modEq.add_right _).trans ?_
    rw [hclear, Nat.add_right_comm (file.remainder _)]
    exact ((file.remainder_modEq (ntHeaders + 88)).add_right _).symm
  have h255 : onesSum 65536 (wordsOf (file.store (ntHeaders + 88) 0).bytes) ≡
      file.remainder (ntHeaders + 88) + file.lastByte [MOD 255] :=
    Nat.ModEq.add_right_cancel hmod255 (hcross.of_dvd (by decide))
  have hbalanced : onesSum 65536 (wordsOf (file.store (ntHeaders + 88) 0).bytes) ≡
      file.remainder (ntHeaders + 88) + file.lastByte [MOD 65535] ↔
        Balanced file (ntHeaders + 88) := by
    rw [← hmod]
    exact ⟨fun hE => Nat.ModEq.add_left_cancel hE hcross,
      fun hX => Nat.ModEq.add_right_cancel hX hcross⟩
  have hexact : (reduced file (ntHeaders + 88) + file.lastByte) % 65536 = _ ↔ _ :=
    sum_eq_iff (A := file.fieldWords (ntHeaders + 88)) (Nat.mod_lt _ (by omega)) file.lastByte_lt
      hpos hlt h255
  rw [checkSumMappedFile_spec hfind baseAddress h]
  unfold imageCheckSum SumExact
  rw [← hbalanced]
  refine Iff.trans ?_ hexact
  have hlen := file.length_lt
  have hsum : (reduced file (ntHeaders + 88) + file.lastByte) % 65536 < 65536 :=
    Nat.mod_lt _ (by omega)
  clear hexact hbalanced h255 hcross hmod hmod255 hclear hstands
  dsimp only
  omega

/-! ## A changed field -/

section Field

variable {file : MappedFile} {offset : Nat}

theorem lastByte_store (value : Nat) (hin : offset + 4 < file.bytes.length) :
    (file.store offset value).lastByte = file.lastByte := by
  have hbyte := file.byte_store_of_ne offset value (file.bytes.length - 1) (by omega)
  unfold MappedFile.lastByte oddByte
  unfold MappedFile.byte at hbyte
  rw [file.store_length, hbyte]

theorem toNat_byte_store (value k : Nat) (hk : k < 4) (hin : offset + 4 < file.bytes.length) :
    ((file.store offset value).byte (offset + k)).toNat = value / 2 ^ (8 * k) % 256 := by
  rw [file.byte_store offset value k hk (by omega), UInt8.toNat_ofNat']

theorem wordAt_store (value : Nat) (hin : offset + 4 < file.bytes.length) :
    (file.store offset value).wordAt offset = value % 65536 ∧
      (file.store offset value).wordAt (offset + 2) = value / 65536 % 65536 := by
  have h0 := @toNat_byte_store file offset value 0 (by omega) hin
  have h1 := @toNat_byte_store file offset value 1 (by omega) hin
  have h2 := @toNat_byte_store file offset value 2 (by omega) hin
  have h3 := @toNat_byte_store file offset value 3 (by omega) hin
  rw [Nat.add_zero] at h0
  unfold MappedFile.wordAt
  rw [Nat.add_assoc offset 2 1, h0, h1, h2, h3]
  omega

theorem fieldWords_store_eq_zero {value : Nat} (hin : offset + 4 < file.bytes.length)
    (hvalue : value < 2 ^ 32) : (file.store offset value).fieldWords offset = 0 ↔ value = 0 := by
  obtain ⟨hlow, hhigh⟩ := wordAt_store value hin
  unfold MappedFile.fieldWords
  rw [hlow, hhigh]
  omega

/-- When the field makes no difference to the sum of the code. -/
theorem reduced_clear_iff (hin : offset + 4 < file.bytes.length) :
    reduced file offset = reduced (file.store offset 0) offset ↔
      Balanced file offset ∧
        ((file.store offset 0).remainder offset ≠ 0 ∨ file.fieldWords offset = 0) := by
  have hclear := file.wordsOf_clear offset
  rw [file.wordsOf_sum_bytes 0, file.wholeWords_eq, MappedFile.wordsOf_sum_bytes _ 0,
    MappedFile.wholeWords_eq, lastByte_store 0 hin] at hclear
  have hzero : (file.store offset 0).fieldWords offset = 0 :=
    (fieldWords_store_eq_zero hin (by omega)).mpr rfl
  have hcross : file.remainder offset + file.fieldWords offset ≡
      (file.store offset 0).remainder offset + file.fieldWeight offset [MOD 65535] := by
    have hstore := (file.store offset 0).remainder_modEq offset
    have hwhole : file.wholeWords =
        (file.store offset 0).wholeWords + file.fieldWeight offset := by omega
    rw [hzero, Nat.add_zero] at hstore
    refine (file.remainder_modEq offset).trans ?_
    rw [hwhole]
    exact (hstore.add_right _).symm
  have hr : file.remainder offset < 65535 := Nat.mod_lt _ (by omega)
  have hr0 : (file.store offset 0).remainder offset < 65535 := Nat.mod_lt _ (by omega)
  have hbalanced : file.remainder offset = (file.store offset 0).remainder offset ↔
      Balanced file offset := by
    rw [← (fieldWeight_mod file offset).2]
    constructor
    · intro heq
      rw [heq] at hcross
      exact (Nat.ModEq.add_left_cancel' _ hcross).symm
    · intro hX
      exact (Nat.ModEq.add_right_cancel hX.symm hcross).eq_of_lt_of_lt hr hr0
  rw [← hbalanced]
  clear hbalanced hcross hclear
  unfold reduced
  rw [hzero, if_pos (Eq.refl 0)]
  split
  · split <;> omega
  · split
    · split <;> omega
    · split <;> omega

theorem reduced_store_iff (value : Nat) (hin : offset + 4 < file.bytes.length) :
    reduced (file.store offset value) offset = reduced (file.store offset 0) offset ↔
      Balanced (file.store offset value) offset ∧
        ((file.store offset 0).remainder offset ≠ 0 ∨
          (file.store offset value).fieldWords offset = 0) := by
  have hclear := @reduced_clear_iff (file.store offset value) offset
    (by rw [file.store_length]; exact hin)
  rwa [file.store_store] at hclear

end Field

/-- The sum the code comes to with the field cleared. -/
def clearedSum (file : MappedFile) (offset : Nat) : Nat :=
  let remainder := (file.store offset 0).remainder offset
  (((if remainder ≠ 0 then remainder else 65535) + file.lastByte) % 65536 +
    file.bytes.length) % 2 ^ 32

/-- The sum of the code does not depend on the field. -/
def Independent (file : MappedFile) (offset : Nat) : Prop :=
  offset % 2 = 0 ∧ (file.store offset 0).remainder offset ≠ 0

/-- The sum stored comes out again. -/
def Recomputes (file : MappedFile) (offset : Nat) : Prop :=
  Balanced (file.store offset (clearedSum file offset)) offset ∧
    ((file.store offset 0).remainder offset ≠ 0 ∨ clearedSum file offset = 0)

section Changed

variable {find : MappedFile → Option Nat} (hfind : NtHeaderFinder find) (baseAddress : Nat)
  {file : MappedFile} {ntHeaders : Nat} (h : HasHeader find file ntHeaders)
  (hin : ntHeaders + 248 ≤ file.bytes.length)
include hfind h hin

theorem checkSum_store_eq_iff (value : Nat) :
    (checkSumMappedFile find baseAddress (file.store (ntHeaders + 88) value)).checkSum =
        (checkSumMappedFile find baseAddress file).checkSum ↔
      reduced (file.store (ntHeaders + 88) value) (ntHeaders + 88) =
        reduced file (ntHeaders + 88) := by
  have hlen := file.length_lt
  have hbyte := file.lastByte_lt
  have hnew := reduced_lt (file.store (ntHeaders + 88) value) (ntHeaders + 88)
  have hold := reduced_lt file (ntHeaders + 88)
  rw [checkSumMappedFile_spec hfind baseAddress h,
    checkSumMappedFile_spec hfind baseAddress (h.store hfind value), lastByte_store value (by omega),
    file.store_length]
  dsimp only
  omega

theorem independent_iff :
    (∀ value, (checkSumMappedFile find baseAddress (file.store (ntHeaders + 88) value)).checkSum =
        (checkSumMappedFile find baseAddress file).checkSum) ↔
      Independent file (ntHeaders + 88) := by
  have hfield : ntHeaders + 88 + 4 < file.bytes.length := by omega
  constructor
  · intro hall
    have hzero := (checkSum_store_eq_iff hfind baseAddress h hin 0).mp (hall 0)
    have hone := (checkSum_store_eq_iff hfind baseAddress h hin 1).mp (hall 1)
    rw [← hzero, reduced_store_iff 1 hfield] at hone
    obtain ⟨hbalanced, hsome⟩ := hone
    have hwords : (file.store (ntHeaders + 88) 1).fieldWords (ntHeaders + 88) ≠ 0 := fun heq =>
      Nat.one_ne_zero ((fieldWords_store_eq_zero hfield (by omega)).mp heq)
    refine ⟨?_, hsome.resolve_right hwords⟩
    apply Nat.mod_two_ne_one.mp
    intro hodd
    have hbytes := hbalanced hodd
    have h0 := toNat_byte_store 1 0 (by omega) hfield
    rw [Nat.add_zero] at h0
    rw [h0, toNat_byte_store 1 1 (by omega) hfield, toNat_byte_store 1 2 (by omega) hfield,
      toNat_byte_store 1 3 (by omega) hfield] at hbytes
    revert hbytes
    decide
  · rintro ⟨heven, hne⟩ value
    have hbalanced (f : MappedFile) : Balanced f (ntHeaders + 88) := fun hodd => by omega
    rw [checkSum_store_eq_iff hfind baseAddress h hin,
      (reduced_store_iff value hfield).mpr ⟨hbalanced _, .inl hne⟩,
      (reduced_clear_iff hfield).mpr ⟨hbalanced _, .inl hne⟩]

theorem clearedSum_eq :
    (checkSumMappedFile find baseAddress (file.store (ntHeaders + 88) 0)).checkSum =
      clearedSum file (ntHeaders + 88) := by
  have hfield : ntHeaders + 88 + 4 < file.bytes.length := by omega
  rw [checkSumMappedFile_spec hfind baseAddress (h.store hfind 0), lastByte_store 0 hfield,
    file.store_length]
  unfold clearedSum reduced
  rw [if_pos ((fieldWords_store_eq_zero hfield (by omega)).mpr rfl)]

theorem recomputes_iff :
    (checkSumMappedFile find baseAddress
          (relocateCheckSum find baseAddress file ntHeaders)).headerSum =
        (checkSumMappedFile find baseAddress
          (relocateCheckSum find baseAddress file ntHeaders)).checkSum ↔
      Recomputes file (ntHeaders + 88) := by
  have hfield : ntHeaders + 88 + 4 < file.bytes.length := by omega
  have hstored : relocateCheckSum find baseAddress file ntHeaders =
      file.store (ntHeaders + 88) (clearedSum file (ntHeaders + 88)) := by
    unfold relocateCheckSum
    dsimp only
    rw [clearedSum_eq hfind baseAddress h hin, file.store_store]
  have hlt : clearedSum file (ntHeaders + 88) < 2 ^ 32 := Nat.mod_lt _ (by omega)
  have hheader : (checkSumMappedFile find baseAddress
      (file.store (ntHeaders + 88) (clearedSum file (ntHeaders + 88)))).headerSum =
      clearedSum file (ntHeaders + 88) := by
    obtain ⟨hlow, hhigh⟩ := wordAt_store (clearedSum file (ntHeaders + 88)) hfield
    rw [checkSumMappedFile_spec hfind baseAddress (h.store hfind _), hlow, hhigh]
    dsimp only
    omega
  have hcleared := clearedSum_eq hfind baseAddress h hin
  have hsame := checkSum_store_eq_iff hfind baseAddress (h.store hfind 0)
    (by rw [file.store_length]; exact hin) (clearedSum file (ntHeaders + 88))
  rw [file.store_store, hcleared, reduced_store_iff _ hfield,
    fieldWords_store_eq_zero hfield hlt] at hsame
  rw [hstored, hheader]
  exact eq_comm.trans hsame

end Changed

/-- When the checksum of an image file is what it should be, when it does not depend on the
stored one, and when the one `RelocateImage` stores comes out again. -/
theorem checkSumMappedFile_exact {find : MappedFile → Option Nat} (hfind : NtHeaderFinder find)
    (baseAddress : Nat) {file : MappedFile} {ntHeaders : Nat}
    (h : HasHeader find file ntHeaders) :
    ((checkSumMappedFile find baseAddress file).checkSum = imageCheckSum file (ntHeaders + 88) ↔
      SumExact file (ntHeaders + 88)) ∧
    (ntHeaders + 248 ≤ file.bytes.length →
      ((∀ value,
          (checkSumMappedFile find baseAddress (file.store (ntHeaders + 88) value)).checkSum =
            (checkSumMappedFile find baseAddress file).checkSum) ↔
        Independent file (ntHeaders + 88)) ∧
      ((checkSumMappedFile find baseAddress
            (relocateCheckSum find baseAddress file ntHeaders)).headerSum =
          (checkSumMappedFile find baseAddress
            (relocateCheckSum find baseAddress file ntHeaders)).checkSum ↔
        Recomputes file (ntHeaders + 88))) :=
  ⟨checkSum_eq_iff hfind baseAddress h, fun hin =>
    ⟨independent_iff hfind baseAddress h hin, recomputes_iff hfind baseAddress h hin⟩⟩

/-! ## A file -/

/-- `RtlpImageNtHeader` as it is documented. -/
def imageNtHeader (file : MappedFile) : Option Nat :=
  if file.byte 0 = 0x4d ∧ file.byte 1 = 0x5a then
    let ntHeaders := file.wordAt 60 + 65536 * file.wordAt 62
    if file.wordAt ntHeaders = 0x4550 ∧ file.wordAt (ntHeaders + 2) = 0 then some ntHeaders
    else none
  else none

theorem imageNtHeader_finder : NtHeaderFinder imageNtHeader := by
  refine ⟨?_, ?_⟩
  · intro file ntHeaders h
    unfold imageNtHeader at h
    split at h
    · rename_i hdos
      exact hdos
    · exact nomatch h
  · intro file file' ntHeaders h hsame
    have hlfanew : file'.wordAt 60 + 65536 * file'.wordAt 62 =
        file.wordAt 60 + 65536 * file.wordAt 62 := by
      unfold MappedFile.wordAt
      rw [hsame _ (by omega), hsame _ (by omega), hsame _ (by omega), hsame _ (by omega)]
    unfold imageNtHeader at h ⊢
    rw [hlfanew, hsame 0 (by omega), hsame 1 (by omega)]
    split at h
    · rename_i hdos
      rw [if_pos hdos]
      dsimp only at h ⊢
      split at h
      · rename_i hnt
        have heq := Option.some.inj h
        rw [heq] at hnt ⊢
        unfold MappedFile.wordAt at hnt ⊢
        rw [hsame _ (by omega), hsame _ (by omega), hsame _ (by omega), hsame _ (by omega)]
        exact if_pos hnt
      · exact nomatch h
    · exact nomatch h

/-- A PE32 file with its headers at 64 and some bytes after them. -/
def sampleBytes (rest : List UInt8) : List UInt8 :=
  [0x4d, 0x5a] ++ List.replicate 58 0 ++ [0x40, 0, 0, 0] ++ [0x50, 0x45, 0, 0] ++
    List.replicate 20 0 ++ [0x0b, 0x01] ++ List.replicate 222 0 ++ rest

theorem length_sampleBytes (rest : List UInt8) :
    (sampleBytes rest).length = 312 + rest.length := by
  unfold sampleBytes
  simp only [List.length_append, List.length_replicate, List.length_cons, List.length_nil]

def evenSample : MappedFile := ⟨sampleBytes [], by rw [length_sampleBytes]; decide⟩

def oddSample : MappedFile :=
  ⟨sampleBytes [0x16, 0x5f, 0x02], by rw [length_sampleBytes]; decide⟩

theorem checkSumMappedFile_exact_sample :
    (checkSumMappedFile imageNtHeader 0x10000 evenSample).checkSum =
        imageCheckSum evenSample (64 + 88) ∧
      (checkSumMappedFile imageNtHeader 0x10000
            (relocateCheckSum imageNtHeader 0x10000 evenSample 64)).headerSum =
          (checkSumMappedFile imageNtHeader 0x10000
            (relocateCheckSum imageNtHeader 0x10000 evenSample 64)).checkSum := by
  have hheader : HasHeader imageNtHeader evenSample 64 :=
    ⟨by decide +kernel, by decide, by decide +kernel⟩
  obtain ⟨hsum, hfield⟩ := checkSumMappedFile_exact imageNtHeader_finder 0x10000 hheader
  have hne : evenSample.remainder (64 + 88) = 41192 := by
    rw [MappedFile.remainder_eq_wordsOf]
    decide +kernel
  have hcleared : (evenSample.store (64 + 88) 0).remainder (64 + 88) = 41192 := by
    rw [MappedFile.remainder_eq_wordsOf]
    decide +kernel
  have hbalanced (f : MappedFile) : Balanced f (64 + 88) := fun hodd => by omega
  refine ⟨hsum.mpr ⟨hbalanced _, ?_⟩, (hfield ?_).2.mpr ⟨hbalanced _, .inl ?_⟩⟩
  · rw [hne]
    decide +kernel
  · exact Nat.le_of_eq (length_sampleBytes []).symm
  · rw [hcleared]
    decide

/-- The carry of the last byte is lost: the words add up to `0xfffe` and the last byte is
2. -/
theorem last_byte_carry_lost :
    ¬ ∀ (find : MappedFile → Option Nat), NtHeaderFinder find →
      ∀ (baseAddress : Nat) (file : MappedFile) (ntHeaders : Nat),
        HasHeader find file ntHeaders →
          (checkSumMappedFile find baseAddress file).checkSum =
            imageCheckSum file (ntHeaders + 88) := by
  intro hall
  have hheader : HasHeader imageNtHeader oddSample 64 :=
    ⟨by decide +kernel, by decide, by decide +kernel⟩
  have heq := hall imageNtHeader imageNtHeader_finder 0x10000 oddSample 64 hheader
  have hcond := (checkSum_eq_iff imageNtHeader_finder 0x10000 hheader).mp heq
  have hsum : oddSample.remainder (64 + 88) = 65534 := by
    rw [MappedFile.remainder_eq_wordsOf]
    decide +kernel
  have hlast : oddSample.lastByte = 2 := by decide +kernel
  have hcarry := hcond.carry (by rw [hsum]; omega)
  omega

end SdkTools.Imagehlp
