import SdkTools.Mep.Lines

/-!
# Undo records and the changes they stand for

A record that is done can take its change back, one that is undone can make it
again. Taking a change back restores the texts; the line count it leaves is the
one in the record.
-/

namespace SdkTools.Mep

set_option autoImplicit false

/-- The line count stored in a record. -/
def Rec.length : Rec → Nat
  | .replace _ _ length => length
  | .insert _ _ length => length
  | .delete _ _ _ length => length
  | .boundary => 0

/-- `Logs done r m m'`: the record `r` stands for the change from `m` to `m'`;
`done` tells on which side of it the file is. -/
inductive Logs (done : Bool) : Rec → List Text → List Text → Prop where
  | replace {m m' : List Text} {line : Nat} {vLine buf : Text} (hm : m' = putLine m line buf)
      (hv : vLine = textAt (if done then m else m') line) :
      Logs done (.replace line vLine m'.length) m m'
  | insert {m m' : List Text} {line n : Nat} (hline : line < m.length)
      (hm : m' = insertBlank m line n) : Logs done (.insert line n m.length) m m'
  | delete {m m' vaLines : List Text} {line n : Nat} (hn : 0 < n) (hend : line + n ≤ m.length)
      (hm : m' = deleteLines m line n) (hlen : vaLines.length = n)
      (hva : ∀ i, i < n → textAt vaLines i = textAt m (line + i)) :
      Logs done (.delete line n vaLines m.length) m m'

theorem Logs.not_boundary {done : Bool} {r : Rec} {m m' : List Text} (h : Logs done r m m') :
    r.isBoundary = false := by
  cases h <;> rfl

/-- Only a put beyond the last line leaves another count than the one before it. -/
theorem Logs.length_eq {done : Bool} {r : Rec} {m m' : List Text} (h : Logs done r m m') :
    r.length = m.length ∨ m.length < m'.length ∧ r.length = m'.length := by
  cases h with
  | replace hm hv =>
    rename_i line vLine buf
    have hlen : m'.length = max m.length (line + 1) := by rw [hm, length_putLine]
    by_cases hline : line < m.length
    · exact Or.inl (by show m'.length = m.length; omega)
    · exact Or.inr ⟨by omega, rfl⟩
  | insert hline hm => exact Or.inl rfl
  | delete hn hend hm hlen hva => exact Or.inl rfl

/-- Storing a line on both sides of a swap. -/
theorem swapLine_spec {f : File} {m m' : List Text} {line : Nat} {vLine : Text} (length : Nat)
    (hs : Shows f m) (hline : line < f.lSize) (hlength : m'.length ≤ length)
    (hroom : length ≤ f.lSize)
    (hm : ∀ i, textAt m' i = if i = line then vLine else textAt m i) :
    ∃ f', swapLine f line length vLine = some (f', .replace line (textAt m line) length) ∧
      Shows f' m' ∧ f'.cLines = length ∧ f.lSize = f'.lSize := by
  have hget : f.plr[line]? = some (textAt m line) := by
    have htext := hs.text line
    rw [List.getElem?_eq_getElem hline]
    simpa [textAt, List.getD_eq_getElem?_getD, List.getElem?_eq_getElem hline] using htext
  have hsize : (f.plr.set line vLine).length = f.plr.length := List.length_set
  refine ⟨⟨length, f.plr.set line vLine⟩, ?_, ⟨?_, hlength, ?_⟩, rfl, hsize.symm⟩
  · simp only [swapLine, hget, Option.bind_eq_bind, Option.bind_some, Option.pure_def]
  · intro i
    rw [textAt_set vLine hline, hm i, hs.text]
  · unfold File.lSize at hroom ⊢
    rw [hsize]
    exact hroom

/-- Taking a change back: the texts are those before it. -/
theorem undoChange_spec {e : Editor} {r : Rec} {m m' : List Text} (h : Logs true r m m')
    (hs : Shows e.file m') (hm : m.length ≤ e.file.lSize) (hm' : m'.length ≤ e.file.lSize) :
    ∃ f r', undoChange e r = some (f, r') ∧ Logs false r' m m' ∧ r'.length = r.length ∧
      Shows f m ∧ f.cLines = r.length ∧ e.file.lSize ≤ f.lSize := by
  have hfits := hs.fits
  have hroom := hs.room
  cases h with
  | replace hput hv =>
    rename_i line vLine buf
    have hlen : m'.length = max m.length (line + 1) := by rw [hput, length_putLine]
    have hback : ∀ i, textAt m i = if i = line then vLine else textAt m' i := by
      intro i
      rw [hput, textAt_putLine, hv]
      by_cases hi : i = line
      · rw [if_pos hi, hi, if_pos rfl]
      · rw [if_neg hi, if_neg hi]
    obtain ⟨f, hf, hsf, hcf, hsize⟩ := swapLine_spec m'.length hs (by omega) (by omega)
      hm' hback
    exact ⟨f, _, hf, .replace hput rfl, rfl, hsf, hcf, Nat.le_of_eq hsize⟩
  | insert hline hins =>
    rename_i line n
    have hlen : m'.length = m.length + n := by rw [hins, length_insertBlank n (by omega)]
    have htext : ∀ i, textAt m' i = _ := fun i => by
      rw [hins, textAt_insertBlank n (Nat.le_of_lt hline) i]
    by_cases hn : n = 0
    · have hguard : line ≥ e.file.cLines ∨ (line : Int) > (line : Int) + n - 1 :=
        Or.inr (by omega)
      refine ⟨{ e.file with cLines := m.length }, .insert line n m.length, ?_,
        .insert hline hins, rfl, ⟨?_, Nat.le_refl _, hm⟩, rfl, Nat.le_refl _⟩
      · simp only [undoChange, DelLine, if_pos hguard, Option.bind_eq_bind, Option.bind_some,
          Option.pure_def]
      · intro i
        show textAt e.file.plr i = textAt m i
        rw [hs.text, htext i]
        by_cases hi : i < line
        · rw [if_pos hi]
        · rw [if_neg hi, if_neg (by omega), hn, Nat.sub_zero]
    · have hguard : ¬ (line ≥ e.file.cLines ∨ (line : Int) > (line : Int) + n - 1) := by omega
      have hlast : (min ((line : Int) + n - 1) ((e.file.cLines : Int) - 1)).toNat
          = line + n - 1 := by omega
      obtain ⟨f, hf, hsize, hcf, htextf⟩ := removeLines_spec hs line
        (line + n - 1) (by omega) (by omega)
      refine ⟨{ f with cLines := m.length }, .insert line n m.length, ?_,
        .insert hline hins, rfl, ⟨?_, Nat.le_refl _, ?_⟩, rfl, Nat.le_of_eq hsize.symm⟩
      · simp only [undoChange, DelLine, if_neg hguard, hlast, hf, Option.bind_eq_bind,
          Option.bind_some, Option.pure_def]
        rfl
      · intro i
        show textAt f.plr i = textAt m i
        rw [htextf i, htext, htext]
        by_cases hi : i < line
        · rw [if_pos hi, if_pos hi]
        · rw [if_neg hi, if_neg (by omega), if_neg (by omega)]
          congr 1
          omega
      · show m.length ≤ f.lSize
        omega
  | delete hn hend hdel hva htext =>
    rename_i vaLines line n
    have hlen : m'.length = m.length - n := by rw [hdel, length_deleteLines hend]
    have htext' : ∀ i, textAt m' i = _ := fun i => by
      rw [hdel, textAt_deleteLines n (by omega) i]
    -- Past the last line `InsLine` does nothing: there the records are blank anyway.
    obtain ⟨e₁, he₁, hsize₁, htext₁⟩ : ∃ e₁, InsLine false line n e = some e₁ ∧
        e.file.lSize ≤ e₁.file.lSize ∧ ∀ i, ¬ (line ≤ i ∧ i < line + n) →
          textAt e₁.file.plr i = textAt m i := by
      by_cases hline : line ≥ e.file.cLines
      · refine ⟨e, if_pos hline, Nat.le_refl _, ?_⟩
        intro i hi
        rw [hs.text, htext' i]
        by_cases hi' : i < line
        · rw [if_pos hi']
        · rw [if_neg hi', textAt_of_length_le (by omega), textAt_of_length_le (by omega)]
      · obtain ⟨f, hf, hsize, hcf, -, htextf⟩ := openLines_spec hs line n (Nat.lt_of_not_le hline)
        refine ⟨⟨f, e.undo⟩, ?_, hsize, ?_⟩
        · simp only [InsLine, if_neg hline, hf, Option.bind_eq_bind, Option.bind_some,
            Option.pure_def]
          rfl
        · intro i hi
          show textAt f.plr i = textAt m i
          rw [htextf i, htext', htext']
          by_cases hi' : i < line
          · rw [if_pos hi', if_pos hi']
          · rw [if_neg hi', if_neg (by omega), if_neg (by omega)]
            congr 1
            omega
    obtain ⟨plr, hplr, hlenp, htextp⟩ := store_of_le e₁.file.plr vaLines line (by unfold File.lSize at *; omega)
    refine ⟨⟨m.length, plr⟩, .delete line n vaLines m.length, ?_,
      .delete hn hend hdel hva htext, rfl, ⟨?_, Nat.le_refl _, ?_⟩, rfl, ?_⟩
    · simp only [undoChange, he₁, hplr, Option.bind_eq_bind, Option.bind_some, Option.pure_def]
    · intro i
      show textAt plr i = textAt m i
      rw [htextp i, hva]
      by_cases hi : line ≤ i ∧ i < line + n
      · have hsum : line + (i - line) = i := by omega
        rw [if_pos hi, htext _ (by omega), hsum]
      · rw [if_neg hi]
        exact htext₁ i hi
    · simp only [File.lSize, hlenp] at hsize₁ hm ⊢
      omega
    · simp only [File.lSize, hlenp] at hsize₁ ⊢
      exact hsize₁

/-- Making a change again, on a file with the right count. -/
theorem redoChange_spec {e : Editor} {r : Rec} {m m' : List Text} (h : Logs false r m m')
    (hs : Shows e.file m) (hc : e.file.cLines = m.length) (hm' : m'.length ≤ e.file.lSize) :
    ∃ f r', redoChange e r = some (f, r') ∧ Logs true r' m m' ∧ r'.length = r.length ∧
      Shows f m' ∧ f.cLines = m'.length ∧ e.file.lSize ≤ f.lSize := by
  have hfits := hs.fits
  have hroom := hs.room
  cases h with
  | replace hput hv =>
    rename_i line vLine buf
    have hlen : m'.length = max m.length (line + 1) := by rw [hput, length_putLine]
    have hagain : ∀ i, textAt m' i = if i = line then vLine else textAt m i := by
      intro i
      rw [hv, hput]
      simp only [textAt_putLine, if_false, Bool.false_eq_true, if_true]
    obtain ⟨f, hf, hsf, hcf, hsize⟩ := swapLine_spec m'.length hs (by omega)
      (Nat.le_refl _) hm' hagain
    exact ⟨f, _, hf, .replace hput rfl, rfl, hsf, hcf, Nat.le_of_eq hsize⟩
  | insert hline hins =>
    rename_i line n
    have hlen : m'.length = m.length + n := by rw [hins, length_insertBlank n (by omega)]
    obtain ⟨f, hf, hsize, hcf, hroomf, htextf⟩ := openLines_spec hs line n (by omega)
    refine ⟨{ f with cLines := m.length + n }, .insert line n m.length, ?_,
      .insert hline hins, rfl, ⟨?_, ?_, ?_⟩, hlen.symm, hsize⟩
    · have hguard : ¬ line ≥ e.file.cLines := by omega
      simp only [redoChange, InsLine, if_neg hguard, hf, Option.bind_eq_bind, Option.bind_some,
        Option.pure_def]
    · intro i
      show textAt f.plr i = textAt m' i
      rw [htextf i, hins, textAt_insertBlank n (Nat.le_of_lt hline)]
    · exact Nat.le_of_eq hlen
    · show m.length + n ≤ f.lSize
      omega
  | delete hn hend hdel hva htext =>
    rename_i vaLines line n
    have hlen : m'.length = m.length - n := by rw [hdel, length_deleteLines hend]
    have hguard : ¬ (line ≥ e.file.cLines ∨ (line : Int) > (line : Int) + n - 1) := by omega
    have hlast : (min ((line : Int) + n - 1) ((e.file.cLines : Int) - 1)).toNat
        = line + n - 1 := by omega
    have hcount : line + n - 1 - line + 1 = n := by omega
    obtain ⟨f, hf, hsize, hcf, htextf⟩ := removeLines_spec hs line
      (line + n - 1) (by omega) (by omega)
    refine ⟨{ f with cLines := m.length - n }, .delete line n vaLines m.length, ?_,
      .delete hn hend hdel hva htext, rfl, ⟨?_, ?_, ?_⟩, hlen.symm, Nat.le_of_eq hsize.symm⟩
    · simp only [redoChange, DelLine, if_neg hguard, hlast, hf, Option.bind_eq_bind,
        Option.bind_some, Option.pure_def]
      rfl
    · intro i
      show textAt f.plr i = textAt m' i
      rw [htextf i, hcount, hdel, textAt_deleteLines n (by omega)]
    · exact Nat.le_of_eq hlen
    · show m.length - n ≤ f.lSize
      omega

end SdkTools.Mep
