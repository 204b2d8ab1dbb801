import Mathlib
import SdkTools.Lib.Run

/-!
# Rebasing images one after another

`ReBaseImage64`, `AdjImageBaseSize` and what `RelocateImage` does to the base, of
`rebasei.c`. Addresses are numbers below `2 ^ 64`; `AdjImageBaseSize` works on their
lower halves.
-/

namespace SdkTools.Imagehlp

set_option autoImplicit false

abbrev ULONG := BitVec 32

def IMAGE_SEPARATION : Nat := 65536

/-- `ROUND_UP` to `IMAGE_SEPARATION` in a `ULONG`. -/
def roundUp (size : Nat) : Nat :=
  (size + (IMAGE_SEPARATION - 1)) % 2 ^ 32 / IMAGE_SEPARATION * IMAGE_SEPARATION

/-- `AdjImageBaseSize`: the base and the size after it. -/
def adjImageBaseSize (imageBase imageSize : Nat) (fGoingDown : Bool) : Nat × Nat :=
  let limit := (imageBase + roundUp imageSize) % 2 ^ 32
  let meg1 := imageBase / 2 ^ 28
  let meg2 := limit / 2 ^ 28
  if meg1 ≠ meg2 then
    if fGoingDown then
      let delta := limit - meg2 * 2 ^ 28 + IMAGE_SEPARATION
      ((imageBase + 2 ^ 32 - delta) % 2 ^ 32, (imageSize + delta) % 2 ^ 32)
    else
      let delta := (meg2 * 2 ^ 28 + 2 ^ 32 - imageBase) % 2 ^ 32
      ((imageBase + delta) % 2 ^ 32, (imageSize + delta) % 2 ^ 32)
  else (imageBase, imageSize)

/-- A 32-bit image as `MapAndLoad` finds it. -/
structure Image where
  loads : Bool
  /-- it has certificates -/
  signed : Bool
  strongNameSigned : Bool
  fSystemImage : Bool
  relocsStripped : Bool
  /-- its relocation blocks can be processed -/
  relocates : Bool
  Machine : BitVec 16
  SizeOfImage : ULONG
  ImageBase : ULONG

/-- The machine types whose images may span a 256MB boundary: I386, ALPHA, ALPHA64
and IA64. -/
def freeMachines : List (BitVec 16) := [0x14c, 0x184, 0x284, 0x200]

def Image.fAdjust (image : Image) : Bool := image.Machine ∉ freeMachines

def Image.newImageSize (image : Image) : Nat := roundUp image.SizeOfImage.toNat

/-- What a successful call leaves behind. -/
structure Placed where
  /-- where the image was wanted -/
  base : Nat
  newImageSize : Nat
  fAdjust : Bool
  /-- the base in its header -/
  imageBase : Nat
  newImageBase : Nat
deriving DecidableEq

/-- The lower half of an address changed in place. -/
def adjusted (address : Nat) (image : Image) (fGoingDown : Bool) : Nat :=
  if image.fAdjust then
    address / 2 ^ 32 * 2 ^ 32 +
      (adjImageBaseSize (address % 2 ^ 32) image.SizeOfImage.toNat fGoingDown).1
  else address

/-- `DesiredImageBase` where the image is placed. -/
def desiredImageBase (fGoingDown : Bool) (image : Image) (newImageBase : Nat) : Nat :=
  if fGoingDown then adjusted ((newImageBase + 2 ^ 64 - image.newImageSize) % 2 ^ 64) image true
  else newImageBase

/-- `DesiredImageBase` at the end. -/
def nextImageBase (fGoingDown : Bool) (image : Image) (desired : Nat) : Nat :=
  if fGoingDown then desired else adjusted ((desired + image.newImageSize) % 2 ^ 64) image false

/-- The base in the header after `RelocateImage`, if the call succeeds: an image that is
not moved for lack of relocations leaves `Diff` zero. -/
def relocated (image : Image) (desired : Nat) : Option Nat :=
  if desired ≠ 0 ∧ desired ≠ image.ImageBase.toNat then
    if image.relocsStripped ∨ ¬ image.relocates then none else some (desired % 2 ^ 32)
  else some image.ImageBase.toNat

/-- `ReBaseImage64` with `fReBase`; `none` stands for `FALSE`. -/
def reBaseImage64 (fRebaseSysfileOk fGoingDown : Bool) (checkImageSize : ULONG) (image : Image)
    (newImageBase : Nat) : Option Placed :=
  if newImageBase % 65536 ≠ 0 then none
  else if ¬ image.loads ∨ image.signed ∨ image.strongNameSigned then none
  else if ¬ fRebaseSysfileOk ∧ image.fSystemImage then none
  else if checkImageSize ≠ 0 ∧ image.newImageSize > roundUp checkImageSize.toNat then none
  else
    let desired := desiredImageBase fGoingDown image newImageBase
    match relocated image desired with
    | none => none
    | some imageBase =>
      some ⟨desired, image.newImageSize, image.fAdjust, imageBase,
        nextImageBase fGoingDown image desired⟩

/-! ## Runs -/

/-- The base for the next image, and the images placed, the last one first. -/
structure Session where
  newImageBase : Nat
  placed : List Placed

structure Call where
  image : Image
  fRebaseSysfileOk : Bool
  checkImageSize : ULONG

/-- A call that returns `TRUE`. -/
inductive Step (fGoingDown : Bool) : Session → Call → Session → Prop where
  | call (s : Session) (c : Call) (p : Placed)
      (h : reBaseImage64 c.fRebaseSysfileOk fGoingDown c.checkImageSize c.image s.newImageBase =
        some p) : Step fGoingDown s c ⟨p.newImageBase, p :: s.placed⟩

/-- An address in the range of an image. -/
def Placed.Has (p : Placed) (a : Nat) : Prop := p.base ≤ a ∧ a < p.base + p.newImageSize

/-- An image where it may be: aligned, in the lower 4GB, with the base in its header, and
not over a 256MB boundary where the machine minds. -/
structure Placed.Sound (p : Placed) : Prop where
  aligned : p.base % 65536 = 0
  ne_zero : p.base ≠ 0
  fits : p.base + p.newImageSize ≤ 2 ^ 32
  header : p.imageBase = p.base % 2 ^ 32
  boundary : p.fAdjust = true → ∀ k, ¬ (p.base < k * 2 ^ 28 ∧ k * 2 ^ 28 < p.base + p.newImageSize)

structure Layout (ps : List Placed) : Prop where
  disjoint : ps.Pairwise fun p q => ∀ a, ¬ (p.Has a ∧ q.Has a)
  sound : ∀ p ∈ ps, p.Sound

end SdkTools.Imagehlp
