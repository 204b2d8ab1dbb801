import SdkTools.Mep.ColorSharing

/-!
# Edits under sharing

The edits and `PutColor` keep what holds between two commands, where no record holds the block that
is freed.
-/

namespace SdkTools.Mep.Colors

set_option autoImplicit false

/-! ## The heap -/

theorem contents_lt {h : Heap} {b : Nat} (hb : (h.contents b).isSome) : b < h.length := by
  unfold Heap.contents at hb
  rcases Nat.lt_or_ge b h.length with hlt | hge
  · exact hlt
  · rw [List.getElem?_eq_none hge] at hb
    cases hb

theorem contents_append {h : Heap} {b : Nat} (hb : b < h.length) (buf : Attrs) :
    Heap.contents (h ++ [some buf]) b = h.contents b := by
  unfold Heap.contents
  rw [List.getElem?_append_left hb]

theorem contents_new (h : Heap) (buf : Attrs) :
    Heap.contents (h ++ [some buf]) h.length = some buf := by
  unfold Heap.contents
  rw [List.getElem?_append_right (Nat.le_refl _), Nat.sub_self]
  rfl

theorem contents_set {h : Heap} {b c : Nat} (hne : b ≠ c) :
    Heap.contents (h.set c none) b = h.contents b := by
  unfold Heap.contents
  rw [List.getElem?_set_ne hne.symm]

theorem Rec.Remembers.congr {h h' : Heap} {r : Rec} (hr : r.Remembers h)
    (heq : ∀ b ∈ r.blocks, h'.contents b = h.contents b) : r.Remembers h' := by
  cases r with
  | delete line n vaColor was length =>
    refine Eq.trans (List.map_congr_left fun c hc => ?_) hr
    cases c with
    | none => rfl
    | some b => exact heq b (mem_blocks.mpr hc)
  | replace line vColor length => trivial
  | insert line n length => trivial
  | boundary => trivial

theorem blocks_subset_recBlocks {r : Rec} {rs : List Rec} (h : r ∈ rs) :
    r.blocks ⊆ recBlocks rs := fun _ hb => List.mem_flatMap.mpr ⟨r, h, hb⟩

theorem Holds.forget {f : File} {done undone : List Rec} (h : Holds f done undone) :
    Holds f done [] :=
  ⟨h.fits, h.doneFits, trivial, h.nodup,
    fun b hb => h.live b (hb.imp id (Or.imp id fun hb => by cases hb)),
    fun r hr => h.was r (hr.imp id fun hr => by cases hr), fun hv => ⟨(h.bare hv).1, rfl⟩⟩

/-- With a heap that has the same blocks where they are referred to. -/
theorem Holds.heap {f : File} {done undone : List Rec} (h : Holds f done undone) {heap : Heap}
    (heq : ∀ b, b ∈ recBlocks done ∨ b ∈ blocks f.colors ∨ b ∈ recBlocks undone →
      heap.contents b = f.heap.contents b) : Holds { f with heap } done undone := by
  refine ⟨h.fits, h.doneFits, h.undoneFits.congr h.fits h.fits rfl ?_, h.nodup, fun b hb => ?_,
    fun r hr => (h.was r hr).congr fun b hb => heq b ?_, h.bare⟩
  · exact List.forall₂_same.mpr fun c _ => .inl rfl
  · exact (congrArg Option.isSome (heq b hb)).trans (h.live b hb)
  · exact hr.imp (fun hr => blocks_subset_recBlocks hr hb)
      fun hr => .inr (blocks_subset_recBlocks hr hb)

/-- A new block changes nothing for the old ones. -/
theorem Holds.malloc {f : File} {done undone : List Rec} (h : Holds f done undone) (buf : Attrs) :
    Holds { f with heap := f.heap ++ [some buf] } done undone :=
  h.heap fun b hb => contents_append (contents_lt (h.live b hb)) buf

/-! ## Colours -/

theorem forall₂_set {R : ColorRec → ColorRec → Prop} (hrefl : ∀ c, R c c) {l : List ColorRec}
    {i : Nat} {d : ColorRec} (h : ∀ c, l[i]? = some c → R c d) : List.Forall₂ R l (l.set i d) := by
  induction l generalizing i with
  | nil => exact .nil
  | cons c l ih =>
    cases i with
    | zero => exact .cons (h c rfl) (List.forall₂_same.mpr fun c _ => hrefl c)
    | succ i => exact .cons (hrefl c) (ih fun c hc => h c hc)

theorem blocks_set {l : List ColorRec} {i : Nat} {c : ColorRec} (h : l[i]? = some c) (b : Nat) :
    blocks l = blocks (l.take i) ++ (blocks [c] ++ blocks (l.drop (i + 1))) ∧
      blocks (l.set i (some b)) = blocks (l.take i) ++ (b :: blocks (l.drop (i + 1))) := by
  obtain ⟨hlt, hget⟩ := List.getElem?_eq_some_iff.mp h
  constructor
  · conv_lhs => rw [← List.take_append_drop i l, List.drop_eq_getElem_cons hlt, hget]
    rw [blocks_append, ← List.singleton_append, blocks_append]
  · rw [List.set_eq_take_append_cons_drop, if_pos hlt, blocks_append]
    rfl

/-- The block of a line is freed and a new one is put in its place. -/
theorem Holds.recolor {f : File} {done undone : List Rec} {line : Nat} {color : ColorRec}
    (h : Holds f done undone) (hcolor : f.colors[line]? = some color)
    (hunheld : ∀ b, color = some b → b ∉ recBlocks done ∧ b ∉ recBlocks undone) {heap : Heap}
    (hlength : heap.length = f.heap.length)
    (heq : ∀ b, color ≠ some b → heap.contents b = f.heap.contents b) (buf : Attrs) :
    Holds { f with
      vaColor := some (f.colors.set line (some f.heap.length))
      heap := heap ++ [some buf] } done undone := by
  obtain ⟨hold, hnew⟩ := blocks_set hcolor f.heap.length
  have hnodup := h.nodup
  rw [hold] at hnodup
  have hdisjoint : ∀ b, color = some b →
      b ∉ blocks (f.colors.take line) ∧ b ∉ blocks (f.colors.drop (line + 1)) := by
    rintro b rfl
    have hlines := (List.nodup_append.mp hnodup).2.1
    obtain ⟨-, hrest, hne⟩ := List.nodup_append.mp hlines
    obtain ⟨-, -, hne'⟩ := List.nodup_append.mp hrest
    exact ⟨fun hb => hne b hb b (List.mem_append_left _ List.mem_cons_self) rfl,
      fun hb => hne' b List.mem_cons_self b hb rfl⟩
  have hkept : ∀ b, b ∈ recBlocks done ∨ b ∈ blocks (f.colors.take line) ∨
      b ∈ blocks (f.colors.drop (line + 1)) ∨ b ∈ recBlocks undone →
      (f.heap.contents b).isSome ∧ color ≠ some b := by
    intro b hb
    refine ⟨h.live b ?_, fun hc => ?_⟩
    · rw [hold]
      rcases hb with hb | hb | hb | hb
      · exact .inl hb
      · exact .inr (.inl (List.mem_append_left _ hb))
      · exact .inr (.inl (List.mem_append_right _ (List.mem_append_right _ hb)))
      · exact .inr (.inr hb)
    · rcases hb with hb | hb | hb | hb
      · exact (hunheld b hc).1 hb
      · exact (hdisjoint b hc).1 hb
      · exact (hdisjoint b hc).2 hb
      · exact (hunheld b hc).2 hb
  have hcontents : ∀ b, (f.heap.contents b).isSome → color ≠ some b →
      Heap.contents (heap ++ [some buf]) b = f.heap.contents b := fun b hb hc =>
    (contents_append (hlength ▸ contents_lt hb) buf).trans (heq b hc)
  have hfresh : ∀ b, (f.heap.contents b).isSome → b ≠ f.heap.length := fun b hb =>
    Nat.ne_of_lt (contents_lt hb)
  have hfits : File.Fits { f with
      vaColor := some (f.colors.set line (some f.heap.length))
      heap := heap ++ [some buf] } := by
    rintro colors ⟨⟩
    rw [List.length_set]
    exact h.fits.length
  refine ⟨hfits, h.doneFits, h.undoneFits.congr h.fits hfits rfl ?_, ?_, fun b hb => ?_,
    fun r hr => (h.was r hr).congr fun b hb => ?_, fun hv => by cases hv⟩
  · refine forall₂_set (fun c => .inl rfl) fun c hc => .inr fun b hb => ?_
    rw [hcolor] at hc
    exact (hunheld b ((Option.some.inj hc).trans hb)).2
  · show (recBlocks done ++ blocks (f.colors.set line (some f.heap.length))).Nodup
    rw [hnew]
    have hsub : (recBlocks done ++ (blocks (f.colors.take line) ++
        blocks (f.colors.drop (line + 1)))).Nodup := by
      refine hnodup.sublist (List.Sublist.append_left (List.Sublist.append_left ?_ _) _)
      exact List.sublist_append_right _ _
    have hperm : (recBlocks done ++ (blocks (f.colors.take line) ++
        f.heap.length :: blocks (f.colors.drop (line + 1)))).Perm
        (f.heap.length :: (recBlocks done ++ (blocks (f.colors.take line) ++
          blocks (f.colors.drop (line + 1))))) := by
      rw [← List.append_assoc, ← List.append_assoc]
      exact List.perm_middle
    refine hperm.nodup_iff.mpr (List.nodup_cons.mpr ⟨fun hmem => ?_, hsub⟩)
    refine hfresh f.heap.length (hkept f.heap.length ?_).1 rfl
    rcases List.mem_append.mp hmem with hmem | hmem
    · exact .inl hmem
    · exact .inr ((List.mem_append.mp hmem).imp id fun hmem => .inl hmem)
  · show (Heap.contents (heap ++ [some buf]) b).isSome
    have hold' : b ∈ recBlocks done ∨ b ∈ blocks (f.colors.take line) ∨
        b ∈ blocks (f.colors.drop (line + 1)) ∨ b ∈ recBlocks undone ∨ b = f.heap.length := by
      rcases hb with hb | hb | hb
      · exact .inl hb
      · have hb : b ∈ blocks (f.colors.set line (some f.heap.length)) := hb
        rw [hnew] at hb
        rcases List.mem_append.mp hb with hb | hb
        · exact .inr (.inl hb)
        · rcases List.mem_cons.mp hb with rfl | hb
          · exact .inr (.inr (.inr (.inr rfl)))
          · exact .inr (.inr (.inl hb))
      · exact .inr (.inr (.inr (.inl hb)))
    have hlive : ∀ hb, (Heap.contents (heap ++ [some buf]) b).isSome := fun hb => by
      obtain ⟨hsome, hc⟩ := hkept b hb
      rw [hcontents b hsome hc]
      exact hsome
    rcases hold' with hb | hb | hb | hb | rfl
    · exact hlive (.inl hb)
    · exact hlive (.inr (.inl hb))
    · exact hlive (.inr (.inr (.inl hb)))
    · exact hlive (.inr (.inr (.inr hb)))
    · rw [← hlength, contents_new]
      rfl
  · have hb' : b ∈ recBlocks done ∨ b ∈ recBlocks undone :=
      hr.imp (fun hr => blocks_subset_recBlocks hr hb) fun hr => blocks_subset_recBlocks hr hb
    obtain ⟨hsome, hc⟩ := hkept b (hb'.imp id fun hb => .inr (.inr hb))
    exact hcontents b hsome hc

/-- `PutColor` where no record holds the block of the line. -/
theorem Holds.putcolorline {f : File} {done undone : List Rec} (h : Holds f done undone)
    {line : Nat}
    (hunheld : line < f.cLines → ∀ b, f.colors[line]? = some (some b) →
      b ∉ recBlocks done ∧ b ∉ recBlocks undone) (buf : Attrs) :
    ∃ g, putcolorline line buf f = some g ∧ Holds g done undone := by
  unfold Colors.putcolorline
  rcases Nat.lt_or_ge line f.cLines with hline | hline
  · rw [if_neg (Nat.not_le.mpr hline)]
    obtain ⟨color, hcolor⟩ : ∃ color, f.colors[line]? = some color :=
      ⟨_, List.getElem?_eq_getElem (h.fits.length ▸ hline)⟩
    rw [hcolor]
    cases color with
    | none => exact ⟨_, rfl, h.recolor hcolor (fun b hb => by cases hb) rfl (fun b _ => rfl) buf⟩
    | some b =>
      have hb : (f.heap.contents b).isSome :=
        h.live b (.inr (.inl (mem_blocks.mpr (List.mem_of_getElem? hcolor))))
      obtain ⟨old, hold⟩ := Option.isSome_iff_exists.mp hb
      have hfree : f.heap.free b = some (f.heap.set b none) := by
        unfold Heap.free
        rw [hold]
        rfl
      have hheld : ∀ c, some b = some c → c ∉ recBlocks done ∧ c ∉ recBlocks undone := by
        rintro c ⟨⟩
        exact hunheld hline b hcolor
      have hrest : ∀ c, some b ≠ some c →
          Heap.contents (f.heap.set b none) c = f.heap.contents c := fun c hc =>
        contents_set fun heq => hc (congrArg some heq.symm)
      have hlength : List.length (f.heap.set b none) = f.heap.length := List.length_set
      refine ⟨_, ?_, h.recolor hcolor hheld hlength hrest buf⟩
      simp only [Option.bind_eq_bind, Option.bind_some, hfree, Heap.malloc, hlength]
      rfl
  · exact ⟨f, if_pos hline, h⟩

/-! ## Logged edits -/

theorem DoneFits.left {rs rest : List Rec} {n : Nat} (h : DoneFits (rs ++ rest) n) :
    DoneFits rs n := by
  induction rs generalizing n with
  | nil => trivial
  | cons r rs ih =>
    obtain ⟨m, hspans, hrest⟩ := h
    exact ⟨m, hspans, ih hrest⟩

/-- The oldest records are discarded. -/
theorem Holds.left {f : File} {done rest undone : List Rec} (h : Holds f (done ++ rest) undone) :
    Holds f done undone := by
  have hblocks : recBlocks (done ++ rest) = recBlocks done ++ recBlocks rest :=
    List.flatMap_append
  have hnodup := h.nodup
  rw [hblocks] at hnodup
  refine ⟨h.fits, h.doneFits.left, h.undoneFits,
    hnodup.sublist ((List.sublist_append_left _ _).append_right _), fun b hb => h.live b ?_,
    fun r hr => h.was r (hr.imp_left (List.mem_append_left _)), fun hv => ?_⟩
  · rw [hblocks]
    exact hb.imp_left (List.mem_append_left _)
  · obtain ⟨hd, hu⟩ := h.bare hv
    rw [hblocks] at hd
    exact ⟨(List.append_eq_nil_iff.mp hd).1, hu⟩

theorem Holds.insert {f : File} {done undone : List Rec} (h : Holds f done undone) {line : Nat}
    (hline : line < f.cLines) (n : Nat) :
    Holds (insLines line n f) (.insert line n f.cLines :: done) [] := by
  have hspans : Spans (.insert line n f.cLines) f.cLines
      (f.with line (List.replicate n none)).cLines := by
    show Spans _ _ (f.cLines + (List.replicate n (none : ColorRec)).length)
    rw [List.length_replicate]
    exact .insert hline
  rw [insLines_eq hline]
  exact h.log (h.fits.with (Nat.le_of_lt hline) _) rfl hspans (blocks_behind hspans trivial)
    trivial (fun hv => ⟨Option.map_eq_none_iff.mp hv, rfl⟩) trivial (List.nil_subset _)

/-- What a deletion saves are the records of the lines. -/
theorem restored_logged {f : File} {start n : Nat} (h : start + n ≤ f.cLines)
    (was : List (Option Attrs)) (length : Nat) :
    Rec.restored (.delete start n (f.vaColor.map fun colors => (colors.drop start).take n) was
      length) = (f.colors.drop start).take n := by
  unfold Rec.restored File.colors
  cases f.vaColor with
  | none =>
    simp only [Option.map_none, Option.getD_none, List.drop_replicate, List.take_replicate]
    congr 1
    omega
  | some colors => rfl

theorem Holds.delete {f : File} {done undone : List Rec} (h : Holds f done undone)
    {start last : Nat} (hstart : start ≤ last) (hlast : last < f.cLines) (u : UndoList) :
    Holds (removeLines f start last) ((LogDelete u f start last).cur :: done) [] := by
  have hfit : start + (last - start + 1) ≤ f.cLines := by omega
  have hrestored := restored_logged hfit
    (((f.colors.drop start).take (last - start + 1)).map f.attrs) f.cLines
  have hwithout : removeLines f start last = f.without start (last - start + 1) := by
    unfold removeLines File.without
    rw [show start + (last - start + 1) = last + 1 by omega]
  have hspans : Spans (LogDelete u f start last).cur f.cLines
      (f.without start (last - start + 1)).cLines := by
    refine .delete (Nat.succ_pos _) ?_ ?_ fun saved hsaved => ?_
    · show f.cLines = f.cLines - _ + _
      omega
    · show start ≤ f.cLines - _
      omega
    · obtain ⟨colors, hv, rfl⟩ := Option.map_eq_some_iff.mp hsaved
      have hlength := h.fits colors hv
      rw [List.length_take, List.length_drop]
      omega
  have hshares : Shares (LogDelete u f start last).cur f := by
    show List.Forall₂ _ (Rec.restored _) _
    rw [hrestored]
    exact List.forall₂_same.mpr fun c _ => .inr rfl
  rw [hwithout]
  refine h.log (h.fits.without hfit) rfl hspans (blocks_behind hspans hshares) ?_
    (fun hv => ?_) trivial (List.nil_subset _)
  · show (Rec.restored _).map _ = _
    rw [hrestored]
    rfl
  · have hnone : f.vaColor = none := Option.map_eq_none_iff.mp hv
    refine ⟨hnone, ?_⟩
    show blocks (Rec.restored _) = []
    rw [hnone]
    exact blocks_replicate _

/-- A replacement without a colour, or a boundary. -/
theorem Holds.logBare {f : File} {r : Rec} {done undone : List Rec} (h : Holds f done undone)
    (hspans : Spans r f.cLines f.cLines) (hblocks : r.blocks = []) (hwas : r.Remembers f.heap) :
    Holds f (r :: done) [] := by
  refine h.log h.fits rfl hspans ?_ hwas (fun hv => ⟨hv, hblocks⟩) trivial (List.nil_subset _)
  rw [hblocks]
  exact List.Subperm.refl _

/-- A replacement that saves a copy of the colour. -/
theorem Holds.logCopy {f : File} {done undone : List Rec} (h : Holds f done undone) {line : Nat}
    (hline : line < f.cLines) (hv : f.vaColor ≠ none) (buf : Attrs) :
    Holds { f with heap := f.heap ++ [some buf] }
      (.replace line (some f.heap.length) f.cLines :: done) [] := by
  have hm := (h.malloc buf).forget
  refine ⟨hm.fits, ⟨f.cLines, .replace hline, hm.doneFits⟩, trivial, ?_, fun b hb => ?_,
    fun q hq => ?_, fun hnone => absurd hnone hv⟩
  · refine List.nodup_cons.mpr ⟨fun hmem => ?_, hm.nodup⟩
    refine Nat.lt_irrefl _ (contents_lt (h.live f.heap.length ?_))
    exact (List.mem_append.mp hmem).imp_right .inl
  · rcases hb with hb | hb
    · rcases List.mem_cons.mp hb with rfl | hb
      · show (Heap.contents (f.heap ++ [some buf]) f.heap.length).isSome
        rw [contents_new]
        rfl
      · exact hm.live b (.inl hb)
    · exact hm.live b (.inr hb)
  · rcases hq with hq | hq
    · rcases List.mem_cons.mp hq with rfl | hq
      · trivial
      · exact hm.was q (.inl hq)
    · cases hq

end SdkTools.Mep.Colors
