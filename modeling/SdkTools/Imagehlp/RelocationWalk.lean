import SdkTools.Imagehlp.Relocation
import SdkTools.Lib.Fallible

/-!
# What the walk may meet

The counter of the loop and its pointer drift apart by one with every odd block size. The
walk stays in the directory exactly as long as the blocks, with their sizes rounded down,
do.
-/

namespace SdkTools.Imagehlp.Relocation

open Lib

set_option autoImplicit false

variable {d : Directory} {Image : LOADED_IMAGE}

/-! ### One block -/

/-- The variables of the walk where `left` bytes are to be counted. -/
structure At (Image : LOADED_IMAGE) (k i : Nat) (left : Int) (w : Walk) : Prop where
  blocks : w.blocks = k
  pos : w.NextBlock = i
  count : w.TotalCountBytes = BitVec.ofInt 32 left
  sections : w.Image.Sections = Image.Sections

/-- The counter is behind the pointer by one for an odd block, and a block has 8 bytes. -/
structure Drift (d : Directory) (k i : Nat) (left : Int) : Prop where
  inside : i ≤ d.TotalCountBytes.toNat
  blocks : 8 * k ≤ i
  below : (d.TotalCountBytes.toNat : Int) - k ≤ i + left
  above : i + left ≤ d.TotalCountBytes.toNat

theorem Drift.start (d : Directory) : Drift d 0 0 d.TotalCountBytes.toNat :=
  ⟨Nat.zero_le _, Nat.le_refl _, by omega, by omega⟩

theorem Drift.next {k i : Nat} {left : Int} (h : Drift d k i left) {n : Nat} (hsize : 8 ≤ n)
    (hin : i + n / 2 * 2 ≤ d.TotalCountBytes.toNat) :
    Drift d (k + 1) (i + n / 2 * 2) (left - n) := by
  obtain ⟨_, hblocks, hbelow, habove⟩ := h
  exact ⟨hin, by omega, by push_cast; omega, by push_cast; omega⟩

/-- What the loop returns at each of the two ends. -/
def Ending.result : Ending → Result
  | .counted => ⟨true, false⟩
  | .stray => ⟨false, true⟩

end SdkTools.Imagehlp.Relocation
