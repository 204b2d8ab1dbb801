import SdkTools.Imagehlp.Rebase

/-!
# The layout of rebased images

Under a condition on each call (room below or above the base, no wrap of a size or of
the next base, and no boundary in the way of an image going up) the images of a run lie
apart, aligned and within 4GB.
-/

namespace SdkTools.Imagehlp

set_option autoImplicit false

/-! ## One image -/

theorem roundUp_spec {size : Nat} (h : size ≤ 0xffff0000) :
    roundUp size % 65536 = 0 ∧ size ≤ roundUp size ∧ roundUp size ≤ 0xffff0000 := by
  unfold roundUp IMAGE_SEPARATION
  omega

/-- Going down, an end beyond a boundary takes the image below it. -/
theorem adj_down {base size : Nat} (hle : base + roundUp size ≤ 2 ^ 32)
    (hsize : roundUp size + 65536 ≤ 2 ^ 28)
    (hroom : base / 2 ^ 28 ≠ (base + roundUp size) / 2 ^ 28 →
      (base + roundUp size) % 2 ^ 28 + 65536 < base) :
    base / 2 ^ 32 * 2 ^ 32 + (adjImageBaseSize (base % 2 ^ 32) size true).1 =
      if base / 2 ^ 28 ≠ (base + roundUp size) / 2 ^ 28 then
        base - (base + roundUp size) % 2 ^ 28 - 65536
      else base := by
  unfold adjImageBaseSize IMAGE_SEPARATION
  generalize roundUp size = r at *
  simp only [if_true]
  rcases Nat.lt_or_eq_of_le (Nat.le_trans (Nat.le_add_right base r) hle) with hlt | htop
  · rw [Nat.mod_eq_of_lt hlt, Nat.div_eq_of_lt hlt, Nat.zero_mul, Nat.zero_add]
    rcases Nat.lt_or_eq_of_le hle with hin | hend
    · rw [Nat.mod_eq_of_lt hin]
      split
      · rename_i hcross
        have hlow := hroom hcross
        have hrest : base + r - (base + r) / 2 ^ 28 * 2 ^ 28 = (base + r) % 2 ^ 28 := by omega
        rw [hrest]
        omega
      · rfl
    · -- The image ends where the address space ends: the limit wraps to zero.
      have hbase : base / 2 ^ 28 = 15 := by omega
      rw [hend, Nat.mod_self, hbase]
      simp only [Nat.zero_div, Nat.zero_mul, Nat.sub_self, Nat.zero_add]
      rw [if_pos (by decide), if_pos (by decide)]
      omega
  · have hr : r = 0 := by omega
    rw [hr, htop, Nat.mod_self, Nat.zero_add, Nat.zero_mod, Nat.add_zero (2 ^ 32)]
    rw [if_neg (not_not.mpr (Eq.refl (0 / 2 ^ 28))), if_neg (not_not.mpr (Eq.refl _)),
      Nat.div_self (by decide), Nat.one_mul]
    exact Nat.add_zero (2 ^ 32)

/-- Going up, the next base leaves room for an image of the same size. -/
theorem adj_up {base size : Nat} (hbase : base ≤ 2 ^ 32) (hlt : roundUp size < 2 ^ 32)
    (hwrap : base = 2 ^ 32 ∨ base + roundUp size < 2 ^ 32) :
    ∃ n, base / 2 ^ 32 * 2 ^ 32 + (adjImageBaseSize (base % 2 ^ 32) size false).1 = n ∧
      base ≤ n ∧ (roundUp size ≤ 2 ^ 28 → n % 2 ^ 28 + roundUp size ≤ 2 ^ 28) := by
  unfold adjImageBaseSize
  generalize roundUp size = r at *
  simp only [Bool.false_eq_true, if_false]
  split
  · rename_i hcross
    refine ⟨_, rfl, ?_, ?_⟩
    · omega
    · intro hr
      omega
  · rename_i hsame
    refine ⟨_, rfl, ?_, ?_⟩
    · omega
    · intro hr
      omega

/-- The condition on the size and the base of a call. The base an image going up finds
was adjusted with the size of the image before it. -/
structure Fits (fGoingDown : Bool) (image : Image) (s : Session) : Prop where
  size : image.SizeOfImage.toNat ≤ 0xffff0000
  room : if fGoingDown then image.newImageSize < s.newImageBase ∧ s.newImageBase ≤ 2 ^ 32
    else s.newImageBase ≠ 0 ∧ s.newImageBase + image.newImageSize ≤ 2 ^ 32
  boundary : image.fAdjust = true →
    if fGoingDown then
      image.newImageSize + 65536 ≤ 2 ^ 28 ∧
        ((s.newImageBase - image.newImageSize) / 2 ^ 28 ≠ s.newImageBase / 2 ^ 28 →
          image.newImageSize + s.newImageBase % 2 ^ 28 + 65536 < s.newImageBase)
    else
      (s.newImageBase % 2 ^ 28 + image.newImageSize ≤ 2 ^ 28 ∨
        ∃ p ∈ s.placed.head?, p.fAdjust = true ∧ image.newImageSize ≤ p.newImageSize ∧
          p.newImageSize ≤ 2 ^ 28) ∧
        (s.newImageBase + image.newImageSize = 2 ^ 32 ∨
          s.newImageBase + 2 * image.newImageSize < 2 ^ 32)

/-- Going down the range of an image ends at the base, or below the 256MB boundary under
it. -/
theorem desired_down {image : Image} {s : Session} (h : Fits true image s)
    (haligned : s.newImageBase % 65536 = 0) :
    ∃ d, desiredImageBase true image s.newImageBase = d ∧ d % 65536 = 0 ∧ d ≠ 0 ∧
      d + image.newImageSize ≤ s.newImageBase ∧
      (image.fAdjust = true → ∀ k, ¬ (d < k * 2 ^ 28 ∧ k * 2 ^ 28 < d + image.newImageSize)) := by
  obtain ⟨hround, -, -⟩ := roundUp_spec h.size
  obtain ⟨hroom, hle⟩ := h.room
  have hboundary := h.boundary
  unfold Image.newImageSize at *
  have hdesired : (s.newImageBase + 2 ^ 64 - roundUp image.SizeOfImage.toNat) % 2 ^ 64 =
      s.newImageBase - roundUp image.SizeOfImage.toNat := by omega
  unfold desiredImageBase adjusted
  rw [if_pos rfl]
  unfold Image.newImageSize
  rw [hdesired]
  cases hadjust : image.fAdjust with
  | false =>
    rw [if_neg Bool.false_ne_true]
    refine ⟨_, rfl, by omega, by omega, by omega, nofun⟩
  | true =>
    rw [if_pos rfl]
    obtain ⟨hsize, hcross⟩ := hboundary hadjust
    have hsum : s.newImageBase - roundUp image.SizeOfImage.toNat +
        roundUp image.SizeOfImage.toNat = s.newImageBase := by omega
    rw [adj_down (by omega) hsize (by rw [hsum]; intro hne; have := hcross hne; omega), hsum]
    generalize roundUp image.SizeOfImage.toNat = r at *
    split
    · rename_i hne
      have hlt := hcross hne
      refine ⟨_, rfl, by omega, by omega, by omega, ?_⟩
      rintro - k ⟨hbelow, habove⟩
      omega
    · rename_i hsame
      refine ⟨_, rfl, by omega, by omega, by omega, ?_⟩
      rintro - k ⟨hbelow, habove⟩
      omega

/-- What a successful call has done. -/
theorem reBaseImage64_some {sysfileOk fGoingDown : Bool} {check : ULONG} {image : Image}
    {base : Nat} {p : Placed} (h : reBaseImage64 sysfileOk fGoingDown check image base = some p) :
    base % 65536 = 0 ∧ ∃ imageBase,
      relocated image (desiredImageBase fGoingDown image base) = some imageBase ∧
      p = ⟨desiredImageBase fGoingDown image base, image.newImageSize, image.fAdjust, imageBase,
        nextImageBase fGoingDown image (desiredImageBase fGoingDown image base)⟩ := by
  unfold reBaseImage64 at h
  split at h
  · cases h
  rename_i haligned
  split at h
  · cases h
  split at h
  · cases h
  split at h
  · cases h
  simp only at h
  split at h
  · cases h
  · rename_i imageBase hbase
    cases h
    exact ⟨not_not.mp haligned, imageBase, hbase, rfl⟩

theorem relocated_some {image : Image} {desired imageBase : Nat} (hne : desired ≠ 0)
    (h : relocated image desired = some imageBase) : imageBase = desired % 2 ^ 32 := by
  unfold relocated at h
  split at h
  · split at h
    · cases h
    · cases h
      rfl
  · rename_i hor
    cases h
    have heq : desired = image.ImageBase.toNat := by
      by_contra hdiff
      exact hor ⟨hne, hdiff⟩
    rw [heq]
    exact (Nat.mod_eq_of_lt image.ImageBase.isLt).symm

/-! ## Runs -/

/-- What runs going down keep: all images lie above the base. -/
structure Below (s : Session) : Prop where
  layout : Layout s.placed
  above : ∀ p ∈ s.placed, s.newImageBase ≤ p.base

/-- What runs going up keep: all images lie below the base, which leaves room for one
of the size of the last image. -/
structure Above (s : Session) : Prop where
  layout : Layout s.placed
  below : ∀ p ∈ s.placed, p.base + p.newImageSize ≤ s.newImageBase
  room : ∀ p ∈ s.placed.head?, p.fAdjust = true → p.newImageSize ≤ 2 ^ 28 →
    s.newImageBase % 2 ^ 28 + p.newImageSize ≤ 2 ^ 28

theorem Layout.cons {p : Placed} {ps : List Placed} (h : Layout ps) (hp : p.Sound)
    (hapart : ∀ q ∈ ps, p.base + p.newImageSize ≤ q.base ∨ q.base + q.newImageSize ≤ p.base) :
    Layout (p :: ps) := by
  refine ⟨List.pairwise_cons.mpr ⟨?_, h.disjoint⟩, ?_⟩
  · rintro q hq a ⟨⟨hp₁, hp₂⟩, hq₁, hq₂⟩
    rcases hapart q hq with hle | hle
    · omega
    · omega
  · intro q hq
    rcases List.mem_cons.mp hq with rfl | hq
    · exact hp
    · exact h.sound q hq

theorem Below.step {s s' : Session} {c : Call} (h : Below s) (hstep : Step true s c s')
    (hfits : Fits true c.image s) : Below s' := by
  obtain ⟨p, hcall⟩ := hstep
  obtain ⟨haligned, imageBase, hbase, rfl⟩ := reBaseImage64_some hcall
  obtain ⟨d, hd, hdaligned, hne, hle, hboundary⟩ := desired_down hfits haligned
  rw [hd] at hbase ⊢
  have hroom := hfits.room.2
  have hsound : Placed.Sound ⟨d, c.image.newImageSize, c.image.fAdjust, imageBase,
      nextImageBase true c.image d⟩ :=
    ⟨hdaligned, hne, Nat.le_trans hle hroom, relocated_some hne hbase, hboundary⟩
  constructor
  · apply h.layout.cons hsound
    intro q hq
    exact .inl (Nat.le_trans hle (h.above q hq))
  · intro q hq
    change d ≤ q.base
    rcases List.mem_cons.mp hq with rfl | hq
    · exact Nat.le_refl d
    · have habove := h.above q hq
      omega

/-- Going up the image before leaves room enough, or the image fits by itself. -/
theorem Above.boundary {s : Session} {image : Image} (h : Above s) (hfits : Fits false image s)
    (hadjust : image.fAdjust = true) :
    s.newImageBase % 2 ^ 28 + image.newImageSize ≤ 2 ^ 28 := by
  rcases (hfits.boundary hadjust).1 with hle | ⟨p, hp, hpadjust, hsize, hmax⟩
  · exact hle
  · have hroom := h.room p hp hpadjust hmax
    omega

theorem Above.step {s s' : Session} {c : Call} (h : Above s) (hstep : Step false s c s')
    (hfits : Fits false c.image s) : Above s' := by
  obtain ⟨p, hcall⟩ := hstep
  obtain ⟨haligned, imageBase, hbase, rfl⟩ := reBaseImage64_some hcall
  obtain ⟨hne, hle⟩ := hfits.room
  change s.newImageBase ≠ 0 at hne
  change relocated c.image s.newImageBase = some imageBase at hbase
  have hsound : Placed.Sound ⟨s.newImageBase, c.image.newImageSize, c.image.fAdjust, imageBase,
      nextImageBase false c.image s.newImageBase⟩ := by
    refine ⟨haligned, hne, hle, relocated_some hne hbase, ?_⟩
    rintro hadjust k ⟨hbelow, habove⟩
    have hin := h.boundary hfits hadjust
    simp only at hbelow habove
    omega
  obtain ⟨n, hn, hge, hroom⟩ : ∃ n, nextImageBase false c.image s.newImageBase = n ∧
      s.newImageBase + c.image.newImageSize ≤ n ∧ (c.image.fAdjust = true →
        c.image.newImageSize ≤ 2 ^ 28 → n % 2 ^ 28 + c.image.newImageSize ≤ 2 ^ 28) := by
    have hsum : (s.newImageBase + c.image.newImageSize) % 2 ^ 64 =
        s.newImageBase + c.image.newImageSize := by omega
    unfold nextImageBase adjusted
    rw [if_neg Bool.false_ne_true, hsum]
    cases hadjust : c.image.fAdjust with
    | false => exact ⟨_, rfl, Nat.le_refl _, nofun⟩
    | true =>
      rw [if_pos rfl]
      have hwrap := (hfits.boundary hadjust).2
      have hmax := (roundUp_spec hfits.size).2.2
      obtain ⟨n, hn, hge, hroom⟩ := @adj_up (s.newImageBase + c.image.newImageSize)
        c.image.SizeOfImage.toNat hle (by omega) (by
          unfold Image.newImageSize at hwrap ⊢
          omega)
      exact ⟨n, hn, hge, fun _ => hroom⟩
  constructor
  · apply h.layout.cons hsound
    intro q hq
    exact .inr (h.below q hq)
  · intro q hq
    change q.base + q.newImageSize ≤ nextImageBase false c.image s.newImageBase
    rw [hn]
    rcases List.mem_cons.mp hq with rfl | hq
    · exact hge
    · have hbelow := h.below q hq
      omega
  · intro q hq hadjust hmax
    change nextImageBase false c.image s.newImageBase % 2 ^ 28 + q.newImageSize ≤ 2 ^ 28
    rw [hn]
    cases hq
    exact hroom hadjust hmax

/-- The images of a run of successful calls each of which meets the condition are laid
out apart, aligned, in 4GB and off the boundaries. -/
theorem rebase_layout {fGoingDown : Bool} {s₀ s : Session} {cs : List Call}
    (hplaced : s₀.placed = [])
    (hrun : Lib.Run (fun s c s' => Step fGoingDown s c s' ∧ Fits fGoingDown c.image s) s₀ cs s) :
    Layout s.placed := by
  have hlayout : Layout s₀.placed := by
    rw [hplaced]
    exact ⟨.nil, nofun⟩
  cases fGoingDown with
  | true =>
    have hinit : Below s₀ := by
      refine ⟨hlayout, ?_⟩
      rw [hplaced]
      exact nofun
    have hend : Below s := hrun.invariant hinit fun a e b ha hstep => ha.step hstep.1 hstep.2
    exact hend.layout
  | false =>
    have hinit : Above s₀ := by
      refine ⟨hlayout, ?_, ?_⟩
      · rw [hplaced]
        exact nofun
      · rw [hplaced]
        exact nofun
    have hend : Above s := hrun.invariant hinit fun a e b ha hstep => ha.step hstep.1 hstep.2
    exact hend.layout

/-- A MIPS image. -/
def mipsImage (size : ULONG) : Image where
  loads := true
  signed := false
  strongNameSigned := false
  fSystemImage := false
  relocsStripped := false
  relocates := true
  Machine := 0x166
  SizeOfImage := size
  ImageBase := 0x400000

theorem rebase_layout_down :
    Layout [⟨0x0ffd0000, 0x20000, true, 0x0ffd0000, 0x0ffd0000⟩] := by
  have hstep : Step true ⟨0x10000000, []⟩ ⟨mipsImage 0x12345, true, 0⟩
      ⟨0x0ffd0000, [⟨0x0ffd0000, 0x20000, true, 0x0ffd0000, 0x0ffd0000⟩]⟩   :=
    .call _ _ ⟨0x0ffd0000, 0x20000, true, 0x0ffd0000, 0x0ffd0000⟩ rfl
  have hfits : Fits true (mipsImage 0x12345) ⟨0x10000000, []⟩ :=
    ⟨by decide, by decide, fun _ => by decide⟩
  exact rebase_layout rfl (Lib.Run.single ⟨hstep, hfits⟩)

/-- Going up, the second image spans a boundary: the base was adjusted with the size of
the first. -/
theorem larger_image_spans :
    ¬ ∀ (fGoingDown : Bool) (s₀ s : Session) (cs : List Call), s₀.placed = [] →
      s₀.newImageBase % 65536 = 0 → Lib.Run (Step fGoingDown) s₀ cs s → Layout s.placed := by
  intro h
  have hfirst : Step false ⟨0x0ffd0000, []⟩ ⟨mipsImage 0x10000, true, 0⟩
      ⟨0x0ffe0000, [⟨0x0ffd0000, 0x10000, true, 0x0ffd0000, 0x0ffe0000⟩]⟩   :=
    .call _ _ ⟨0x0ffd0000, 0x10000, true, 0x0ffd0000, 0x0ffe0000⟩ rfl
  have hsecond : Step false ⟨0x0ffe0000, [⟨0x0ffd0000, 0x10000, true, 0x0ffd0000, 0x0ffe0000⟩]⟩
      ⟨mipsImage 0x40000, true, 0⟩
      ⟨0x10020000, [⟨0x0ffe0000, 0x40000, true, 0x0ffe0000, 0x10020000⟩,
        ⟨0x0ffd0000, 0x10000, true, 0x0ffd0000, 0x0ffe0000⟩]⟩   :=
    .call _ _ ⟨0x0ffe0000, 0x40000, true, 0x0ffe0000, 0x10020000⟩ rfl
  have hlayout := h false _ _ _ rfl rfl (.snoc (.snoc .nil hfirst) hsecond)
  have hsound := hlayout.sound _ List.mem_cons_self
  exact hsound.boundary rfl 1 ⟨by decide, by decide⟩

end SdkTools.Imagehlp
