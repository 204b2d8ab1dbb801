import SdkTools.Imagehlp.CheckSum

/-!
# What `ChkSum` computes

Each block of `ChkSum` adds its words to what `eax` stands for modulo 65535, and no carry
is lost: the result stands for the sum of all words, for every length and alignment.
-/

namespace SdkTools.Imagehlp

open Lib

set_option autoImplicit false

theorem base16 : 65536 ≡ 1 [MOD 65535] := rfl

theorem base32 : 2 ^ 32 ≡ 1 [MOD 65535] := rfl

/-! ## Words of the memory -/

/-- The sum of `n` words. -/
def wordSum (mem : Memory) : Nat → Nat → Nat
  | _, 0 => 0
  | a, n + 1 => word mem a + wordSum mem (a + 2) n

theorem wordSum_add (mem : Memory) (a n k : Nat) :
    wordSum mem a (n + k) = wordSum mem a n + wordSum mem (a + 2 * n) k := by
  induction n generalizing a with
  | zero => rw [Nat.zero_add, wordSum, Nat.zero_add, Nat.mul_zero, Nat.add_zero]
  | succ n ih =>
    have hnext : a + 2 + 2 * n = a + 2 * (n + 1) := by omega
    rw [Nat.succ_add, wordSum, wordSum, ih, hnext, Nat.add_assoc]

theorem word_lt (mem : Memory) (a : Nat) : word mem a < 65536 := by
  have hlow := (mem a).toNat_lt
  have hhigh := (mem (a + 1)).toNat_lt
  unfold word
  omega

theorem dword_lt (mem : Memory) (a : Nat) : dword mem a < 2 ^ 32 := by
  have hlow := word_lt mem a
  have hhigh := word_lt mem (a + 2)
  unfold dword
  omega

theorem dword_stands (mem : Memory) (a : Nat) :
    Stands 65535 (dword mem a) (word mem a + word mem (a + 2)) := by
  refine (Stands.refl 65535 (word mem a)).add ⟨?_, ?_⟩
  · have hmul := base16.mul_right (word mem (a + 2))
    rw [Nat.one_mul] at hmul
    exact hmul
  · omega

/-! ## The blocks -/

/-- A chain starts with the carry clear, so the last carry always fits. -/
theorem adcChain_stands (mem : Memory) (n esi eax cf t : Nat) (h : Stands 65535 (eax + cf) t)
    (hlt : eax + cf < 2 ^ 32) :
    Stands 65535 (adcChain mem n esi eax cf) (t + wordSum mem esi (2 * n)) ∧
      adcChain mem n esi eax cf < 2 ^ 32 := by
  induction n generalizing esi eax cf t with
  | zero =>
    rw [adcChain, Nat.mod_eq_of_lt hlt]
    exact ⟨h, hlt⟩
  | succ n ih =>
    have hword := dword_lt mem esi
    have hsum : eax + dword mem esi + cf = eax + cf + dword mem esi := by omega
    have hstands : Stands 65535 (endAround (2 ^ 32) (eax + dword mem esi + cf))
        (t + (word mem esi + word mem (esi + 2))) := by
      rw [hsum]
      exact (h.add (dword_stands mem esi)).endAround base32
    have hnext := ih (esi + 4) _ _ _ hstands (endAround_lt (by omega))
    have htotal : wordSum mem esi (2 * (n + 1)) =
        word mem esi + word mem (esi + 2) + wordSum mem (esi + 4) (2 * n) := by
      rw [Nat.mul_succ, wordSum, wordSum, Nat.add_assoc esi, Nat.add_assoc]
    rw [adcChain, htotal, ← Nat.add_assoc]
    exact hnext

/-- After `n` words from `buf` on, with `t` in `eax` before. -/
structure Summed (mem : Memory) (t buf n : Nat) (r : Regs) : Prop where
  stands : Stands 65535 r.eax (t + wordSum mem buf n)
  lt : r.eax < 2 ^ 32
  esi : r.esi = buf + 2 * n

namespace Summed

variable {mem : Memory} {t buf n : Nat} {r : Regs}

theorem block {size : Nat} (h : Summed mem t buf n r) (hsize : size % 4 = 0) :
    Summed mem t buf (n + size / 2) (block mem size r) := by
  obtain ⟨hstands, hlt⟩ := adcChain_stands mem (size / 4) r.esi r.eax 0 _ h.stands h.lt
  have hhalf : 2 * (size / 4) = size / 2 := by omega
  rw [hhalf, h.esi, Nat.add_assoc, ← wordSum_add] at hstands
  refine ⟨?_, hlt, ?_⟩
  · rw [← h.esi] at hstands
    exact hstands
  · show r.esi + size = buf + 2 * (n + size / 2)
    rw [h.esi]
    omega

theorem cks50 (k : Nat) (h : Summed mem t buf n r) (hecx : r.ecx = 128 * (k + 1)) :
    Summed mem t buf (n + r.ecx / 2) (cks50 mem (k + 1) r) := by
  induction k generalizing n r with
  | zero =>
    have hblock := h.block (show 128 % 4 = 0 from rfl)
    have hdone : (Imagehlp.block mem 128 r).ecx = 0 := by
      show r.ecx - 128 = 0
      omega
    rw [Imagehlp.cks50, if_pos hdone, hecx]
    exact hblock
  | succ k ih =>
    have hblock := h.block (show 128 % 4 = 0 from rfl)
    have hleft : (Imagehlp.block mem 128 r).ecx = 128 * (k + 1) := by
      show r.ecx - 128 = 128 * (k + 1)
      omega
    have hloop := ih hblock hleft
    have hwords : n + 128 / 2 + (Imagehlp.block mem 128 r).ecx / 2 = n + r.ecx / 2 := by omega
    rw [hwords] at hloop
    rw [Imagehlp.cks50, if_neg (by omega)]
    exact hloop

end Summed

/-- Block sizes that double up to the 128 of the loop. -/
def Doubling : Nat → List Nat → Prop
  | size, [] => size = 128
  | size, s :: sizes => s = size ∧ size % 4 = 0 ∧ Doubling (2 * size) sizes

theorem Summed.initialBlocks {mem : Memory} {t buf : Nat} {size : Nat} (sizes : List Nat)
    (hsizes : Doubling size sizes) {n : Nat} {r : Regs} (h : Summed mem t buf n r)
    (hecx : size ∣ r.ecx) (hne : r.ecx ≠ 0) :
    Summed mem t buf (n + r.ecx / 2) (initialBlocks mem sizes r) := by
  induction sizes generalizing size n r with
  | nil =>
    have hsize : size = 128 := hsizes
    subst hsize
    obtain ⟨k, hk⟩ := hecx
    obtain ⟨k, rfl⟩ := Nat.exists_eq_succ_of_ne_zero (show k ≠ 0 by rintro rfl; exact hne hk)
    rw [Imagehlp.initialBlocks, show r.ecx / 128 = k + 1 by omega]
    exact h.cks50 k hk
  | cons s sizes ih =>
    obtain ⟨rfl, hfour, hrest⟩ := hsizes
    obtain ⟨q, hq⟩ := hecx
    have hpos : 0 < s := Nat.pos_of_ne_zero (by rintro rfl; rw [Nat.zero_mul] at hq; exact hne hq)
    have hdiv : r.ecx / s = q := by rw [hq, Nat.mul_div_cancel_left q hpos]
    rw [Imagehlp.initialBlocks, hdiv]
    split
    · rename_i hodd
      have hblock := h.block hfour
      obtain ⟨j, hj⟩ : ∃ j, q = 2 * j + 1 := ⟨q / 2, by omega⟩
      have hsplit : r.ecx = 2 * s * j + s := by
        rw [hq, hj, Nat.mul_succ, Nat.mul_comm 2 s, Nat.mul_assoc]
      have hleft : (Imagehlp.block mem s r).ecx = 2 * s * j := by
        show r.ecx - s = 2 * s * j
        omega
      have hwords : n + s / 2 + (Imagehlp.block mem s r).ecx / 2 = n + r.ecx / 2 := by
        rw [hleft, hsplit, Nat.mul_assoc]
        omega
      dsimp only
      split
      · rename_i hzero
        rw [hzero, Nat.zero_div, Nat.add_zero] at hwords
        rwa [hwords] at hblock
      · rename_i hmore
        have hnext := ih hrest hblock ⟨j, hleft⟩ hmore
        rwa [hwords] at hnext
    · rename_i heven
      refine ih hrest h ⟨q / 2, ?_⟩ hne
      have hhalf : 2 * (q / 2) = q := by omega
      rw [Nat.mul_comm 2 s, Nat.mul_assoc, hhalf]
      exact hq

/-! ## Single words and the fold -/

theorem addWord_stands {eax w t : Nat} (h : Stands 65535 eax t) (hlt : eax < 2 ^ 32)
    (hw : w < 65536) : Stands 65535 (addWord eax w) (t + w) ∧ addWord eax w < 2 ^ 32 := by
  have hend : endAround (2 ^ 32) (eax + w) < 2 ^ 32 := endAround_lt (by omega)
  have heq : addWord eax w = endAround (2 ^ 32) (eax + w) := Nat.mod_eq_of_lt hend
  rw [heq]
  exact ⟨(h.add (.refl 65535 w)).endAround base32, hend⟩

theorem cks70_stands (mem : Memory) (n esi eax t : Nat) (h : Stands 65535 eax t)
    (hlt : eax < 2 ^ 32) :
    Stands 65535 (cks70 mem n esi eax) (t + wordSum mem esi n) ∧ cks70 mem n esi eax < 2 ^ 32 := by
  induction n generalizing esi eax t with
  | zero => exact ⟨h, hlt⟩
  | succ n ih =>
    obtain ⟨hword, hwlt⟩ := addWord_stands h hlt (word_lt mem esi)
    rw [cks70, wordSum, ← Nat.add_assoc]
    exact ih (esi + 2) _ _ hword hwlt

theorem cks80_stands {eax t : Nat} (h : Stands 65535 eax t) (hlt : eax < 2 ^ 32) :
    Stands 65535 (cks80 eax) t ∧ cks80 eax < 65536 := by
  have hfirst : endAround 65536 eax + 2 ≤ 2 * 65536 := by
    unfold endAround
    omega
  have hsecond : cks80 eax = endAround 65536 (endAround 65536 eax) := by
    show (endAround 65536 eax + endAround 65536 eax / 65536) % 65536 =
      endAround 65536 eax % 65536 + endAround 65536 eax / 65536
    omega
  rw [hsecond]
  exact ⟨(h.endAround base16).endAround base16, endAround_lt hfirst⟩

/-- `ChkSum` stands for the sum of all words, for every length and alignment. -/
theorem chkSum_stands (mem : Memory) (cksum buf len : Nat) (hcksum : cksum < 2 ^ 32)
    (hlen : len * 2 < 2 ^ 32) :
    Stands 65535 (chkSum mem cksum buf len) (cksum + wordSum mem buf len) ∧
      chkSum mem cksum buf len < 65536 := by
  unfold chkSum
  rw [Nat.mod_eq_of_lt hlen]
  dsimp only
  split
  · rename_i hzero
    obtain rfl : len = 0 := by omega
    exact cks80_stands (.refl 65535 cksum) hcksum
  · rename_i hne
    -- the word for alignment, if there is one
    generalize hr : (if buf / 2 % 2 = 1 then
      (⟨addWord cksum (word mem buf), buf + 2, len * 2 - 2⟩ : Regs) else
      ⟨cksum, buf, len * 2⟩) = r
    obtain ⟨n, hn, hecx⟩ : ∃ n, Summed mem cksum buf n r ∧ r.ecx = (len - n) * 2 ∧ n ≤ len := by
      split at hr
      · obtain ⟨hword, hwlt⟩ := addWord_stands (.refl 65535 cksum) hcksum (word_lt mem buf)
        subst hr
        exact ⟨1, ⟨hword, hwlt, rfl⟩, by show len * 2 - 2 = (len - 1) * 2; omega, by omega⟩
      · subst hr
        exact ⟨0, ⟨.refl 65535 cksum, hcksum, rfl⟩, rfl, Nat.zero_le len⟩
    -- the blocks
    have hblocks : Summed mem cksum buf (n + (r.ecx - r.ecx % 8) / 2)
        (if r.ecx - r.ecx % 8 = 0 then ⟨r.eax, r.esi, r.ecx - r.ecx % 8⟩
          else initialBlocks mem [8, 16, 32, 64] ⟨r.eax, r.esi, r.ecx - r.ecx % 8⟩) := by
      have hsame : Summed mem cksum buf n ⟨r.eax, r.esi, r.ecx - r.ecx % 8⟩ :=
        ⟨hn.stands, hn.lt, hn.esi⟩
      split
      · rename_i hzero
        rw [hzero] at hsame ⊢
        exact hsame
      · rename_i hmore
        have hdouble : Doubling 8 [8, 16, 32, 64] :=
          ⟨rfl, rfl, rfl, rfl, rfl, rfl, rfl, rfl, rfl⟩
        exact Summed.initialBlocks _ hdouble hsame ⟨r.ecx / 8, by show r.ecx - r.ecx % 8 = _; omega⟩
          hmore
    generalize (if r.ecx - r.ecx % 8 = 0 then (⟨r.eax, r.esi, r.ecx - r.ecx % 8⟩ : Regs)
      else initialBlocks mem [8, 16, 32, 64] ⟨r.eax, r.esi, r.ecx - r.ecx % 8⟩) = r' at hblocks ⊢
    -- the last words
    obtain ⟨hstands, hlt⟩ := cks70_stands mem (r.ecx % 8 / 2) r'.esi r'.eax _ hblocks.stands
      hblocks.lt
    have hwords : n + (r.ecx - r.ecx % 8) / 2 + r.ecx % 8 / 2 = len := by omega
    rw [hblocks.esi, Nat.add_assoc, ← wordSum_add, hwords] at hstands
    rw [hblocks.esi] at hlt
    rw [hblocks.esi]
    exact cks80_stands hstands hlt

end SdkTools.Imagehlp
