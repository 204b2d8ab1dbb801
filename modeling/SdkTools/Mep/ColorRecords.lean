import SdkTools.Mep.LineColors

/-!
# Which blocks the lines and the records hold

The blocks of the lines in the file and of the records behind the current one are all different. A
record that was undone shares its blocks with the lines it restored, until it is redone.
-/

namespace SdkTools.Mep.Colors

set_option autoImplicit false

/-! ## Single records -/

def File.Fits (f : File) : Prop := ∀ colors, f.vaColor = some colors → colors.length = f.cLines

theorem File.Fits.length {f : File} (h : f.Fits) : f.colors.length = f.cLines := by
  unfold File.colors
  cases hv : f.vaColor with
  | none => exact List.length_replicate
  | some colors => exact h colors hv

theorem File.ext' {f g : File} (hlines : f.cLines = g.cLines) (hcolor : f.vaColor = g.vaColor)
    (hheap : f.heap = g.heap) : f = g := by
  cases f
  cases g
  simp_all

/-- Only the number of lines is set where the array has it already. -/
theorem File.Fits.setLength {f g : File} (h : f.Fits) (hcolor : g.vaColor = f.vaColor)
    (hheap : g.heap = f.heap) {n : Nat} (hn : f.cLines = n) : g.setLength n = f := by
  subst hn
  refine File.ext' rfl ?_ hheap
  unfold File.setLength
  cases hv : f.vaColor with
  | none => simp [hcolor, hv]
  | some colors =>
    have hlength := h colors hv
    simp only [hcolor, hv, Option.map_some, ← hlength, List.take_length, Nat.sub_self,
      List.replicate_zero, List.append_nil]

/-- With `n` lines more at `line`, which hold `between`. -/
def File.with (f : File) (line : Nat) (between : List ColorRec) : File :=
  { f with
    cLines := f.cLines + between.length
    vaColor := f.vaColor.map fun colors => colors.take line ++ (between ++ colors.drop line) }

/-- Without the `n` lines from `line` on. -/
def File.without (f : File) (line n : Nat) : File :=
  { f with
    cLines := f.cLines - n
    vaColor := f.vaColor.map fun colors => colors.take line ++ colors.drop (line + n) }

theorem take_append_drop_append {colors between : List ColorRec} {line : Nat}
    (h : line ≤ colors.length) :
    (colors.take line ++ (between ++ colors.drop line)).take line = colors.take line ∧
      (colors.take line ++ (between ++ colors.drop line)).drop line = between ++ colors.drop line ∧
      (colors.take line ++ (between ++ colors.drop line)).drop (line + between.length) =
        colors.drop line := by
  have hlength : (colors.take line).length = line := by
    rw [List.length_take, Nat.min_eq_left h]
  refine ⟨List.take_left' hlength, List.drop_left' hlength, ?_⟩
  rw [← List.drop_drop, List.drop_left' hlength, List.drop_left]

theorem File.Fits.with {f : File} (h : f.Fits) {line : Nat} (hline : line ≤ f.cLines)
    (between : List ColorRec) : (f.with line between).Fits := by
  intro colors hc
  unfold File.with at hc
  cases hv : f.vaColor with
  | none =>
    rw [hv] at hc
    cases hc
  | some colors' =>
    rw [hv] at hc
    cases hc
    have hlength := h colors' hv
    simp only [File.with, List.length_append, List.length_take, List.length_drop]
    omega

theorem File.Fits.without {f : File} (h : f.Fits) {line n : Nat} (hline : line + n ≤ f.cLines) :
    (f.without line n).Fits := by
  intro colors hc
  unfold File.without at hc
  cases hv : f.vaColor with
  | none =>
    rw [hv] at hc
    cases hc
  | some colors' =>
    rw [hv] at hc
    cases hc
    have hlength := h colors' hv
    simp only [File.without, List.length_append, List.length_take, List.length_drop]
    omega

theorem File.colors_with {f : File} {line : Nat} (hline : line ≤ f.cLines)
    {between : List ColorRec}
    (hbare : f.vaColor = none → between = List.replicate between.length none) :
    (f.with line between).colors = f.colors.take line ++ (between ++ f.colors.drop line) := by
  unfold File.with File.colors
  cases hv : f.vaColor with
  | none =>
    simp only [Option.map_none, Option.getD_none, List.take_replicate, List.drop_replicate]
    rw [hbare hv, List.replicate_append_replicate, List.replicate_append_replicate,
      List.length_replicate]
    congr 1
    omega
  | some colors => rfl

theorem File.colors_without {f : File} {line n : Nat} (hline : line + n ≤ f.cLines) :
    (f.without line n).colors = f.colors.take line ++ f.colors.drop (line + n) := by
  unfold File.without File.colors
  cases hv : f.vaColor with
  | none =>
    simp only [Option.map_none, Option.getD_none, List.take_replicate, List.drop_replicate,
      List.replicate_append_replicate]
    congr 1
    omega
  | some colors => rfl

theorem File.Fits.without_with {f : File} (h : f.Fits) {line : Nat} (hline : line ≤ f.cLines)
    (between : List ColorRec) : (f.with line between).without line between.length = f := by
  refine File.ext' (Nat.add_sub_cancel ..) ?_ rfl
  unfold File.with File.without
  cases hv : f.vaColor with
  | none => rfl
  | some colors =>
    have hlength := h colors hv
    obtain ⟨htake, -, hdrop⟩ :=
      @take_append_drop_append colors between line (by omega)
    simp only [Option.map_some, htake, hdrop, List.take_append_drop]

theorem File.Fits.with_without {f : File} (h : f.Fits) {line : Nat} {between : List ColorRec}
    (hline : line + between.length ≤ f.cLines)
    (hbetween : (f.colors.drop line).take between.length = between) :
    (f.without line between.length).with line between = f := by
  refine File.ext' (Nat.sub_add_cancel (by omega)) ?_ rfl
  unfold File.with File.without
  unfold File.colors at hbetween
  cases hv : f.vaColor with
  | none => rfl
  | some colors =>
    have hlength := h colors hv
    rw [hv] at hbetween
    simp only [Option.getD_some] at hbetween
    have hline' : (colors.take line).length = line := by
      rw [List.length_take, Nat.min_eq_left (by omega)]
    simp only [Option.map_some, List.take_left' hline', List.drop_left' hline']
    congr 1
    conv_rhs => rw [← List.take_append_drop line colors,
      ← List.take_append_drop between.length (colors.drop line), hbetween, List.drop_drop]

theorem insLines_eq {f : File} {line : Nat} (h : line < f.cLines) (n : Nat) :
    insLines line n f = f.with line (List.replicate n none) := by
  unfold insLines File.with
  rw [if_neg (Nat.not_le.mpr h), List.length_replicate]

theorem delLines_eq {f : File} {line n : Nat} (hpos : 0 < n) (h : line + n ≤ f.cLines) :
    delLines line ((line : Int) + n - 1) f = f.without line n := by
  have hlast : lastLine f ((line : Int) + n - 1) = line + n - 1 := by
    unfold lastLine
    omega
  unfold delLines removeLines File.without
  rw [if_neg (by unfold OutOfFile; omega), hlast,
    show line + n - 1 - line + 1 = n by omega, show line + n - 1 + 1 = line + n by omega]

/-- A record between a file of `before` lines and one of `behind` lines. -/
inductive Spans : Rec → Nat → Nat → Prop
  | replace {line n : Nat} {vColor : ColorRec} : line < n → Spans (.replace line vColor n) n n
  | insert {line n before : Nat} : line < before →
      Spans (.insert line n before) before (before + n)
  | delete {line n before behind : Nat} {vaColor : Option (List ColorRec)}
      {was : List (Option Attrs)} : 0 < n → before = behind + n → line ≤ behind →
      (∀ saved, vaColor = some saved → saved.length = n) →
      Spans (.delete line n vaColor was before) before behind
  | boundary {n : Nat} : Spans .boundary n n

/-- When undoing a record keeps the colours: the colour of a replaced line is not exchanged, a
redone insertion is blank, and a deletion must have saved colours if there are any. -/
def UndoAllowed (f : File) : Rec → Prop
  | .replace line vColor _ =>
    f.vaColor = none ∨ vColor = none ∧ f.colors[line]? = some none
  | .insert line n _ => (f.colors.drop line).take n = List.replicate n none
  | .delete _ _ vaColor _ _ => f.vaColor = none ∨ vaColor ≠ none
  | .boundary => True

/-- The lines that come back with a deletion. -/
def Rec.restored : Rec → List ColorRec
  | .delete _ n vaColor _ _ => vaColor.getD (List.replicate n none)
  | _ => []

/-- The file in front of a record. -/
def before (f : File) : Rec → File
  | .insert line n _ => f.without line n
  | .delete line n vaColor was length =>
    f.with line (Rec.restored (.delete line n vaColor was length))
  | _ => f

theorem restored_length {line n before behind : Nat} {vaColor : Option (List ColorRec)}
    {was : List (Option Attrs)} (h : Spans (.delete line n vaColor was before) before behind) :
    (Rec.restored (.delete line n vaColor was before)).length = n := by
  cases h with
  | delete hpos hn hline hsaved =>
    unfold Rec.restored
    cases vaColor with
    | none => exact List.length_replicate
    | some saved => exact hsaved saved rfl

theorem delLines_insert {f : File} {line n : Nat} (h : line + n ≤ f.cLines) :
    delLines line ((line : Int) + n - 1) f = f.without line n := by
  rcases Nat.eq_zero_or_pos n with rfl | hpos
  · unfold delLines
    rw [if_pos (by unfold OutOfFile; omega)]
    refine File.ext' rfl ?_ rfl
    unfold File.without
    cases f.vaColor with
    | none => rfl
    | some colors => simp
  · exact delLines_eq hpos h

theorem restoreColors_some {g : File} {colors : List ColorRec} (h : g.vaColor = some colors)
    (line n : Nat) (saved : List ColorRec) :
    restoreColors g line n (some saved) =
      some { g with vaColor := some (colors.take line ++ (saved ++ colors.drop (line + n))) } := by
  unfold restoreColors
  rw [h]

/-- The saved records are copied to where the lines were inserted. -/
theorem restoreColors_insLines {f : File} {line n length : Nat}
    {vaColor : Option (List ColorRec)} {was : List (Option Attrs)} (hf : f.Fits)
    (hline : line ≤ f.cLines) (hallowed : UndoAllowed f (.delete line n vaColor was length))
    (hsaved : ∀ saved, vaColor = some saved → saved.length = n) :
    ∃ g, restoreColors (insLines line n f) line n vaColor = some g ∧
      g.vaColor = (f.with line (Rec.restored (.delete line n vaColor was length))).vaColor ∧
      g.heap = f.heap := by
  have hheap : (insLines line n f).heap = f.heap := by
    unfold insLines
    split <;> rfl
  cases hv : f.vaColor with
  | none =>
    have hnone : (insLines line n f).vaColor = none := by
      unfold insLines
      split
      · exact hv
      · show f.vaColor.map _ = none
        rw [hv]
        rfl
    refine ⟨insLines line n f, by unfold restoreColors; rw [hnone], ?_, hheap⟩
    rw [hnone]
    show none = f.vaColor.map _
    rw [hv]
    rfl
  | some colors =>
    have hlength := hf colors hv
    obtain ⟨saved, rfl⟩ : ∃ saved, vaColor = some saved :=
      Option.ne_none_iff_exists'.mp (hallowed.resolve_left (by simp [hv]))
    have hwith : (f.with line (Rec.restored (.delete line n (some saved) was length))).vaColor =
        some (colors.take line ++ (saved ++ colors.drop line)) := by
      show f.vaColor.map _ = _
      rw [hv]
      rfl
    rw [hwith]
    rcases Nat.lt_or_ge line f.cLines with hlt | hge
    · obtain ⟨htake, -, hdrop⟩ := @take_append_drop_append colors (List.replicate n none) line
        (by omega)
      rw [List.length_replicate] at hdrop
      have hins : (insLines line n f).vaColor =
          some (colors.take line ++ (List.replicate n none ++ colors.drop line)) := by
        rw [insLines_eq hlt]
        show f.vaColor.map _ = _
        rw [hv]
        rfl
      refine ⟨_, restoreColors_some hins line n saved, ?_, hheap⟩
      simp only [htake, hdrop]
    · have hins : insLines line n f = f := by
        unfold insLines
        exact if_pos hge
      rw [hins]
      refine ⟨_, restoreColors_some hv line n saved, ?_, rfl⟩
      simp only [List.drop_eq_nil_of_le (show colors.length ≤ line + n by omega),
        List.drop_eq_nil_of_le (show colors.length ≤ line by omega)]

/-- Undoing a record and redoing it gives the file back, colours and all. -/
theorem undo_spec {f : File} {r : Rec} {m : Nat} (hf : f.Fits) (hspans : Spans r m f.cLines)
    (hallowed : UndoAllowed f r) :
    undoChange r f = some (before f r) ∧ (before f r).Fits ∧ (before f r).cLines = m ∧
      (before f r).heap = f.heap ∧ redoChange r (before f r) = f := by
  generalize hn : f.cLines = n at hspans
  cases hspans with
  | @replace line _ vColor hline =>
    refine ⟨?_, hf, hn, rfl, hf.setLength rfl rfl hn⟩
    show undoReplace f line vColor m = some f
    unfold undoReplace
    rcases hallowed with hnone | ⟨rfl, hcolor⟩
    · rw [hnone]
      exact congrArg some (hf.setLength rfl rfl hn)
    · unfold File.colors at hcolor
      cases hv : f.vaColor with
      | none => exact congrArg some (hf.setLength rfl rfl hn)
      | some colors =>
        have hlength := hf colors hv
        rw [hv, Option.getD_some] at hcolor
        simp only [if_pos (show line < colors.length by omega)]
        have hset : colors.set line none = colors := by
          obtain ⟨hlt, hget⟩ := List.getElem?_eq_some_iff.mp hcolor
          rw [← hget, List.set_getElem_self]
        rw [hset]
        exact congrArg some (hf.setLength (g := { f with vaColor := some colors }) hv.symm rfl hn)
  | @insert line k _ hline =>
    have hfit : line + k ≤ f.cLines := by omega
    have hlines : (f.without line k).cLines = m := by
      show f.cLines - k = m
      omega
    have hwithout := hf.without hfit
    have hback : (f.without line k).with line (List.replicate k none) = f := by
      have h := @File.Fits.with_without f hf line (List.replicate k none)
      rw [List.length_replicate] at h
      exact h hfit hallowed
    refine ⟨?_, hwithout, hlines, rfl, ?_⟩
    · show some ((delLines line ((line : Int) + k - 1) f).setLength m) = _
      rw [delLines_insert hfit]
      exact congrArg some (hwithout.setLength rfl rfl hlines)
    · show (insLines line k (f.without line k)).setLength (m + k) = f
      rw [insLines_eq (by omega), hback]
      exact hf.setLength rfl rfl hn
  | @delete line k _ _ vaColor was hpos hm hline hsaved =>
    have hspans : Spans (.delete line k vaColor was m) m n := .delete hpos hm hline hsaved
    have hline' : line ≤ f.cLines := by omega
    let restored := Rec.restored (.delete line k vaColor was m)
    have hlength : restored.length = k := restored_length hspans
    have hwith : (f.with line restored).Fits := hf.with hline' restored
    have hlines : (f.with line restored).cLines = m := by
      show f.cLines + restored.length = m
      omega
    refine ⟨?_, hwith, hlines, rfl, ?_⟩
    · obtain ⟨g, hg, hcolor, hheap⟩ := restoreColors_insLines hf hline' hallowed hsaved
      show (restoreColors (insLines line k f) line k vaColor).map (·.setLength m) = _
      rw [hg]
      exact congrArg some (hwith.setLength hcolor hheap hlines)
    · show (delLines line ((line : Int) + k - 1) (f.with line restored)).setLength (m - k) = f
      have hback := hf.without_with hline' restored
      rw [delLines_eq hpos (by omega), ← hlength, hback]
      exact hf.setLength rfl rfl (by omega)
  | boundary => exact ⟨rfl, hf, hn, rfl, rfl⟩

/-- The file behind a record that is redone. -/
def behind (f : File) : Rec → File
  | .insert line n _ => f.with line (List.replicate n none)
  | .delete line n _ _ _ => f.without line n
  | _ => f

theorem redo_spec {f : File} {r : Rec} {n : Nat} (hf : f.Fits) (hspans : Spans r f.cLines n) :
    redoChange r f = behind f r ∧ (behind f r).Fits ∧ (behind f r).cLines = n ∧
      (behind f r).heap = f.heap := by
  generalize hm : f.cLines = m at hspans
  cases hspans with
  | replace hline => exact ⟨hf.setLength rfl rfl hm, hf, hm, rfl⟩
  | @insert line k _ hline =>
    have hwith : (f.with line (List.replicate k none)).Fits := hf.with (by omega) _
    have hlines : (f.with line (List.replicate k none)).cLines = m + k := by
      show f.cLines + (List.replicate k (none : ColorRec)).length = _
      rw [List.length_replicate, hm]
    refine ⟨?_, hwith, hlines, rfl⟩
    show (insLines line k f).setLength (m + k) = _
    rw [insLines_eq (by omega)]
    exact hwith.setLength rfl rfl hlines
  | @delete line k _ _ vaColor was hpos hn hline hsaved =>
    have hwithout : (f.without line k).Fits := hf.without (by omega)
    have hlines : (f.without line k).cLines = n := by
      show f.cLines - k = n
      omega
    refine ⟨?_, hwithout, hlines, rfl⟩
    show (delLines line ((line : Int) + k - 1) f).setLength (m - k) = _
    rw [delLines_eq hpos (by omega)]
    exact hwithout.setLength rfl rfl (by omega)
  | boundary => exact ⟨rfl, hf, hm, rfl⟩

/-! ## Blocks -/

def blocks (colors : List ColorRec) : List Nat := colors.filterMap id

theorem blocks_append (l₁ l₂ : List ColorRec) : blocks (l₁ ++ l₂) = blocks l₁ ++ blocks l₂ :=
  List.filterMap_append

theorem blocks_replicate (n : Nat) : blocks (List.replicate n none) = [] := by
  induction n with
  | zero => rfl
  | succ n ih => exact ih

theorem mem_blocks {colors : List ColorRec} {b : Nat} : b ∈ blocks colors ↔ some b ∈ colors := by
  simp [blocks]

theorem eq_replicate_of_blocks {colors : List ColorRec} (h : blocks colors = []) :
    colors = List.replicate colors.length none := by
  refine List.eq_replicate_of_mem fun c hc => ?_
  cases c with
  | none => rfl
  | some b =>
    have hb : b ∈ blocks colors := mem_blocks.mpr hc
    rw [h] at hb
    cases hb

/-- The blocks that a record holds. -/
def Rec.blocks : Rec → List Nat
  | .replace _ vColor _ => Colors.blocks [vColor]
  | .delete line n vaColor was length =>
    Colors.blocks (Rec.restored (.delete line n vaColor was length))
  | _ => []

def recBlocks (rs : List Rec) : List Nat := rs.flatMap Rec.blocks

theorem recBlocks_cons (r : Rec) (rs : List Rec) : recBlocks (r :: rs) = r.blocks ++ recBlocks rs :=
  rfl

/-- The blocks of lines that were cut out, and of the lines around them. -/
theorem blocks_split (colors : List ColorRec) (line n : Nat) :
    (blocks colors).Perm (blocks ((colors.drop line).take n) ++
      blocks (colors.take line ++ colors.drop (line + n))) := by
  have hsplit : colors = colors.take line ++
      ((colors.drop line).take n ++ colors.drop (line + n)) := by
    rw [← List.drop_drop, List.take_append_drop, List.take_append_drop]
  conv_lhs => rw [hsplit]
  rw [blocks_append, blocks_append, blocks_append, ← List.append_assoc, ← List.append_assoc]
  exact List.Perm.append_right _ List.perm_append_comm

theorem blocks_insert (colors between : List ColorRec) (line : Nat) :
    (blocks (colors.take line ++ (between ++ colors.drop line))).Perm
      (blocks between ++ blocks colors) := by
  conv_rhs => rw [← List.take_append_drop line colors]
  rw [blocks_append, blocks_append, blocks_append, ← List.append_assoc, ← List.append_assoc]
  exact List.Perm.append_right _ List.perm_append_comm

end SdkTools.Mep.Colors
