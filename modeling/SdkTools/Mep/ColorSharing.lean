import SdkTools.Mep.ColorRecords

/-!
# Sharing between lines and undone records

What holds between any two commands: the blocks of lines and done records are different and
allocated, and the records ahead can be redone.
-/

namespace SdkTools.Mep.Colors

set_option autoImplicit false

/-- The records behind the current place, the nearest first, of a file of `n` lines. -/
def DoneFits : List Rec → Nat → Prop
  | [], _ => True
  | r :: rs, n => ∃ m, Spans r m n ∧ DoneFits rs m

/-- The lines still hold what the record of their deletion holds. -/
def Shares (r : Rec) (f : File) : Prop :=
  match r with
  | .replace _ vColor _ => vColor = none
  | .delete line n vaColor was length =>
    List.Forall₂ (fun c d => c = none ∨ c = d) (Rec.restored (.delete line n vaColor was length))
      ((f.colors.drop line).take n)
  | _ => True

/-- The records ahead of the current place, the nearest first. -/
def UndoneFits : List Rec → File → Prop
  | [], _ => True
  | r :: rs, f =>
    (∃ n, Spans r f.cLines n) ∧ Shares r f ∧ UndoneFits rs (behind f r)

/-- A deletion still holds the colours that it saved, and none if it saved none. -/
def Rec.Remembers (h : Heap) : Rec → Prop
  | .delete line n vaColor was length =>
    (Rec.restored (.delete line n vaColor was length)).map (fun c => c.bind h.contents) = was
  | _ => True

structure Holds (f : File) (done undone : List Rec) : Prop where
  fits : f.Fits
  doneFits : DoneFits done f.cLines
  undoneFits : UndoneFits undone f
  nodup : (recBlocks done ++ blocks f.colors).Nodup
  live : ∀ b, b ∈ recBlocks done ∨ b ∈ blocks f.colors ∨ b ∈ recBlocks undone →
    (f.heap.contents b).isSome
  was : ∀ r, r ∈ done ∨ r ∈ undone → r.Remembers f.heap
  bare : f.vaColor = none → recBlocks done = [] ∧ recBlocks undone = []

theorem vaColor_before {f : File} {r : Rec} (h : (before f r).vaColor = none) :
    f.vaColor = none := by
  cases r with
  | insert line n length => exact Option.map_eq_none_iff.mp h
  | delete line n vaColor was length => exact Option.map_eq_none_iff.mp h
  | replace line vColor length => exact h
  | boundary => exact h

theorem vaColor_behind {f : File} {r : Rec} (h : (behind f r).vaColor = none) :
    f.vaColor = none := by
  cases r with
  | insert line n length => exact Option.map_eq_none_iff.mp h
  | delete line n vaColor was length => exact Option.map_eq_none_iff.mp h
  | replace line vColor length => exact h
  | boundary => exact h

/-- Undoing moves the blocks of a record to the lines. -/
theorem blocks_before {f : File} {r : Rec} {m : Nat} (hf : f.Fits) (hspans : Spans r m f.cLines)
    (hallowed : UndoAllowed f r) (hbare : f.vaColor = none → r.blocks = []) :
    (blocks (before f r).colors).Perm (r.blocks ++ blocks f.colors) ∧ Shares r (before f r) := by
  generalize hn : f.cLines = n at hspans
  cases hspans with
  | @replace line _ vColor hline =>
    have hnone : vColor = none := by
      rcases hallowed with hv | ⟨h, -⟩
      · have hempty := hbare hv
        cases vColor with
        | none => rfl
        | some b => cases hempty
      · exact h
    subst hnone
    exact ⟨.refl _, rfl⟩
  | @insert line k _ hline =>
    have hsplit := blocks_split f.colors line k
    rw [show (f.colors.drop line).take k = List.replicate k none from hallowed, blocks_replicate]
      at hsplit
    refine ⟨?_, trivial⟩
    show (blocks (f.without line k).colors).Perm _
    rw [File.colors_without (by omega)]
    exact hsplit.symm
  | @delete line k _ _ vaColor was hpos hm hline hsaved =>
    let restored := Rec.restored (.delete line k vaColor was m)
    have hlength : restored.length = k := restored_length (.delete hpos hm hline hsaved)
    have hcolors : (f.with line restored).colors =
        f.colors.take line ++ (restored ++ f.colors.drop line) :=
      File.colors_with (by omega) fun hv => eq_replicate_of_blocks (hbare hv)
    refine ⟨?_, ?_⟩
    · show (blocks (f.with line restored).colors).Perm _
      rw [hcolors]
      exact blocks_insert f.colors restored line
    · show List.Forall₂ _ restored (((f.with line restored).colors.drop line).take k)
      obtain ⟨-, hdrop, -⟩ := @take_append_drop_append f.colors restored line
        (by rw [hf.length]; omega)
      rw [hcolors, hdrop, List.take_left' hlength]
      exact List.forall₂_same.mpr fun c _ => .inr rfl
  | boundary => exact ⟨.refl _, trivial⟩

theorem behind_before {f : File} {r : Rec} {m : Nat} (hf : f.Fits) (hspans : Spans r m f.cLines)
    (hallowed : UndoAllowed f r) : behind (before f r) r = f := by
  obtain ⟨-, hfits, hlines, -, hredo⟩ := undo_spec hf hspans hallowed
  rw [← hlines] at hspans
  rw [← (redo_spec hfits hspans).1]
  exact hredo

theorem Holds.undo {f : File} {r : Rec} {done undone : List Rec} (h : Holds f (r :: done) undone)
    (hallowed : UndoAllowed f r) : Holds (before f r) done (r :: undone) := by
  obtain ⟨m, hspans, hrest⟩ := h.doneFits
  obtain ⟨-, hfits, hlines, hheap, -⟩ := undo_spec h.fits hspans hallowed
  have hbare : f.vaColor = none → r.blocks = [] := fun hv =>
    (List.append_eq_nil_iff.mp (h.bare hv).1).1
  obtain ⟨hperm, hshares⟩ := blocks_before h.fits hspans hallowed hbare
  have hback := behind_before h.fits hspans hallowed
  -- The blocks that were in the record are in the lines now.
  have hmoved : (recBlocks done ++ blocks (before f r).colors).Perm
      (recBlocks (r :: done) ++ blocks f.colors) := by
    rw [recBlocks_cons, List.append_assoc]
    refine (hperm.append_left _).trans ?_
    rw [← List.append_assoc, ← List.append_assoc]
    exact List.perm_append_comm.append_right _
  have hlive : ∀ b, b ∈ recBlocks (r :: done) ∨ b ∈ blocks f.colors ∨ b ∈ recBlocks undone →
      ((before f r).heap.contents b).isSome := by
    rw [hheap]
    exact h.live
  refine ⟨hfits, hlines ▸ hrest, ⟨⟨f.cLines, hlines ▸ hspans⟩, hshares, hback.symm ▸ h.undoneFits⟩,
    hmoved.nodup_iff.mpr h.nodup, fun b hb => hlive b ?_, fun q hq => ?_, fun hv => ?_⟩
  · rcases hb with hb | hb | hb
    · exact .inl (List.mem_append_right _ hb)
    · rcases List.mem_append.mp (hperm.subset hb) with hb | hb
      · exact .inl (List.mem_append_left _ hb)
      · exact .inr (.inl hb)
    · rcases List.mem_append.mp hb with hb | hb
      · exact .inl (List.mem_append_left _ hb)
      · exact .inr (.inr hb)
  · rw [hheap]
    refine h.was q ?_
    rcases hq with hq | hq
    · exact .inl (List.mem_cons_of_mem _ hq)
    · rcases List.mem_cons.mp hq with rfl | hq
      · exact .inl List.mem_cons_self
      · exact .inr hq
  · obtain ⟨hd, hu⟩ := h.bare (vaColor_before hv)
    obtain ⟨hr, hd⟩ := List.append_eq_nil_iff.mp hd
    exact ⟨hd, List.append_eq_nil_iff.mpr ⟨hr, hu⟩⟩

theorem blocks_sublist_of_shares {saved lines : List ColorRec}
    (h : List.Forall₂ (fun c d => c = none ∨ c = d) saved lines) :
    (blocks saved).Sublist (blocks lines) := by
  induction h with
  | nil => exact List.Sublist.slnil
  | @cons c d saved lines hcd _ ih =>
    cases c with
    | none =>
      cases d with
      | none => exact ih
      | some b => exact ih.cons b
    | some b =>
      cases hcd with
      | inl h => cases h
      | inr h =>
        subst h
        exact ih.cons_cons b

/-- Redoing takes the blocks of a record out of the lines. -/
theorem blocks_behind {f : File} {r : Rec} {n : Nat} (hspans : Spans r f.cLines n)
    (hshares : Shares r f) :
    (r.blocks ++ blocks (behind f r).colors).Subperm (blocks f.colors) := by
  generalize hm : f.cLines = m at hspans
  cases hspans with
  | replace hline =>
    rw [show _ = none from hshares]
    exact List.Subperm.refl _
  | @insert line k _ hline =>
    show (blocks (f.with line (List.replicate k none)).colors).Subperm _
    rw [File.colors_with (by omega) fun _ => by rw [List.length_replicate]]
    have hperm := blocks_insert f.colors (List.replicate k none) line
    rw [blocks_replicate] at hperm
    exact hperm.subperm
  | @delete line k _ _ vaColor was hpos hn hline hsaved =>
    show (blocks _ ++ blocks (f.without line k).colors).Subperm _
    rw [File.colors_without (by omega)]
    have hsub := blocks_sublist_of_shares hshares
    exact (hsub.append_right _).subperm.trans (blocks_split f.colors line k).symm.subperm
  | boundary => exact List.Subperm.refl _

theorem recBlocks_subset {rest rs : List Rec} (h : rest ⊆ rs) : recBlocks rest ⊆ recBlocks rs := by
  intro b hb
  obtain ⟨r, hr, hb⟩ := List.mem_flatMap.mp hb
  exact List.mem_flatMap.mpr ⟨r, h hr, hb⟩

/-- A record takes its blocks from the lines. -/
theorem Holds.log {f g : File} {r : Rec} {done undone rest : List Rec} (h : Holds f done undone)
    (hg : g.Fits) (hheap : g.heap = f.heap) (hspans : Spans r f.cLines g.cLines)
    (hsub : (r.blocks ++ blocks g.colors).Subperm (blocks f.colors))
    (hwas : r.Remembers f.heap) (hbare : g.vaColor = none → f.vaColor = none ∧ r.blocks = [])
    (hrest : UndoneFits rest g) (hmem : rest ⊆ undone) : Holds g (r :: done) rest := by
  have hmoved : (recBlocks (r :: done) ++ blocks g.colors).Subperm
      (recBlocks done ++ blocks f.colors) := by
    refine List.Subperm.trans (List.Perm.subperm ?_)
      ((List.subperm_append_left (recBlocks done)).mpr hsub)
    rw [recBlocks_cons, ← List.append_assoc]
    exact List.perm_append_comm.append_right _
  have hblocks := recBlocks_subset hmem
  refine ⟨hg, ⟨f.cLines, hspans, h.doneFits⟩, hrest, ?_, fun b hb => ?_, fun q hq => ?_,
    fun hv => ?_⟩
  · obtain ⟨l, hperm, hl⟩ := hmoved
    exact hperm.nodup_iff.mp (h.nodup.sublist hl)
  · rw [hheap]
    refine h.live b ?_
    rcases hb with hb | hb | hb
    · exact (List.mem_append.mp (hmoved.subset (List.mem_append_left _ hb))).imp_right .inl
    · exact (List.mem_append.mp (hmoved.subset (List.mem_append_right _ hb))).imp_right .inl
    · exact .inr (.inr (hblocks hb))
  · rw [hheap]
    rcases hq with hq | hq
    · rcases List.mem_cons.mp hq with rfl | hq
      · exact hwas
      · exact h.was q (.inl hq)
    · exact h.was q (.inr (hmem hq))
  · obtain ⟨hf, hr⟩ := hbare hv
    obtain ⟨hdone, hundone⟩ := h.bare hf
    rw [recBlocks_cons, hr, hdone]
    exact ⟨rfl, List.subset_nil.mp (hundone ▸ hblocks)⟩

theorem Holds.redo {f : File} {r : Rec} {done undone : List Rec} (h : Holds f done (r :: undone)) :
    Holds (behind f r) (r :: done) undone := by
  obtain ⟨⟨n, hspans⟩, hshares, hrest⟩ := h.undoneFits
  obtain ⟨-, hfits, hlines, hheap⟩ := redo_spec h.fits hspans
  refine h.log hfits hheap (hlines.symm ▸ hspans) (blocks_behind hspans hshares)
    (h.was r (.inr List.mem_cons_self)) (fun hv => ?_) hrest (List.subset_cons_self _ _)
  have hf := vaColor_behind hv
  exact ⟨hf, (List.append_eq_nil_iff.mp (h.bare hf).2).1⟩

/-! ## Other lines under the same records -/

def linesBehind : Rec → List ColorRec → List ColorRec
  | .insert line n _, colors => colors.take line ++ (List.replicate n none ++ colors.drop line)
  | .delete line n _ _ _, colors => colors.take line ++ colors.drop (line + n)
  | _, colors => colors

theorem colors_behind {f : File} {r : Rec} {n : Nat} (hspans : Spans r f.cLines n) :
    (behind f r).colors = linesBehind r f.colors := by
  generalize hm : f.cLines = m at hspans
  cases hspans with
  | replace hline => rfl
  | @insert line k _ hline =>
    exact File.colors_with (by omega) fun _ => by rw [List.length_replicate]
  | @delete line k _ _ vaColor was hpos hn hline hsaved => exact File.colors_without (by omega)
  | boundary => rfl

/-- The colour record is the same, or no one of `held`. -/
def Keeps (held : List Nat) (c d : ColorRec) : Prop := c = d ∨ ∀ b, c = some b → b ∉ held

theorem Keeps.mono {held held' : List Nat} {c d : ColorRec} (hsub : held' ⊆ held)
    (h : Keeps held c d) : Keeps held' c d :=
  h.imp id fun h b hb hmem => h b hb (hsub hmem)

theorem keeps_linesBehind {held : List Nat} {l l' : List ColorRec}
    (h : List.Forall₂ (Keeps held) l l') (r : Rec) :
    List.Forall₂ (Keeps held) (linesBehind r l) (linesBehind r l') := by
  cases r with
  | insert line n length =>
    refine List.rel_append (List.forall₂_take line h)
      (List.rel_append ?_ (List.forall₂_drop line h))
    exact List.forall₂_same.mpr fun c _ => .inl rfl
  | delete line n vaColor was length =>
    exact List.rel_append (List.forall₂_take line h) (List.forall₂_drop (line + n) h)
  | replace line vColor length => exact h
  | boundary => exact h

theorem shares_keeps {held : List Nat} {saved l l' : List ColorRec}
    (hheld : blocks saved ⊆ held)
    (h : List.Forall₂ (fun c d => c = none ∨ c = d) saved l)
    (hkeeps : List.Forall₂ (Keeps held) l l') :
    List.Forall₂ (fun c d => c = none ∨ c = d) saved l' := by
  induction h generalizing l' with
  | nil =>
    cases hkeeps
    exact .nil
  | @cons c d saved l hcd _ ih =>
    cases hkeeps with
    | cons hd hrest =>
      have hsub : blocks saved ⊆ held := fun b hb =>
        hheld (mem_blocks.mpr (List.mem_cons_of_mem _ (mem_blocks.mp hb)))
      refine .cons ?_ (ih hsub hrest)
      cases c with
      | none => exact .inl rfl
      | some b =>
        have hdb : some b = d := hcd.resolve_left (by simp)
        rcases hd with hd | hd
        · exact .inr (hdb.trans hd)
        · exact absurd (hheld (mem_blocks.mpr List.mem_cons_self)) (hd b hdb.symm)

/-- The records ahead can be redone as long as the blocks that they hold stay where they are. -/
theorem UndoneFits.congr {rs : List Rec} {f g : File} (hf : f.Fits) (hg : g.Fits)
    (hlines : g.cLines = f.cLines)
    (hcolors : List.Forall₂ (Keeps (recBlocks rs)) f.colors g.colors) (h : UndoneFits rs f) :
    UndoneFits rs g := by
  induction rs generalizing f g with
  | nil => trivial
  | cons r rs ih =>
    obtain ⟨⟨n, hspans⟩, hshares, hrest⟩ := h
    have hspans' : Spans r g.cLines n := hlines.symm ▸ hspans
    obtain ⟨-, hfits, hn, -⟩ := redo_spec hf hspans
    obtain ⟨-, hfits', hn', -⟩ := redo_spec hg hspans'
    refine ⟨⟨n, hspans'⟩, ?_, ih hfits hfits' (hn'.trans hn.symm) ?_ hrest⟩
    · cases r with
      | replace line vColor length => exact hshares
      | insert line n length => trivial
      | delete line n vaColor was length =>
        exact shares_keeps (List.subset_append_left _ _) hshares
          (List.forall₂_take n (List.forall₂_drop line hcolors))
      | boundary => trivial
    · rw [colors_behind hspans, colors_behind hspans']
      exact (keeps_linesBehind hcolors r).imp fun _ _ hk =>
        hk.mono (List.subset_append_right _ _)

end SdkTools.Mep.Colors
