import SdkTools.Mep.Undo

/-!
# What the primitives on line records do

A document is the list of the lines of a file. A file shows a document when its
records hold the lines of the document and blanks elsewhere; its line count may
be too large by blank lines.
-/

namespace SdkTools.Mep

set_option autoImplicit false

/-- The text of line `i` of a document, blank from its end on. -/
def textAt (m : List Text) (i : Nat) : Text := m.getD i []

/-- The document after `buf` is put in a line, with blank lines up to it. -/
def putLine (m : List Text) (line : Nat) (buf : Text) : List Text :=
  (m ++ List.replicate (line + 1 - m.length) []).set line buf

def insertBlank (m : List Text) (line n : Nat) : List Text :=
  m.take line ++ List.replicate n [] ++ m.drop line

/-- The document without the `n` lines from `yStart` on. -/
def deleteLines (m : List Text) (yStart n : Nat) : List Text :=
  m.take yStart ++ m.drop (yStart + n)

theorem textAt_of_length_le {m : List Text} {i : Nat} (h : m.length ≤ i) : textAt m i = [] := by
  simp [textAt, List.getElem?_eq_none h]

theorem ext_textAt {m m' : List Text} (hlen : m.length = m'.length)
    (h : ∀ i, textAt m i = textAt m' i) : m = m' := by
  apply List.ext_getElem hlen
  intro i hi hi'
  have hget := h i
  simpa [textAt, List.getD_eq_getElem?_getD, List.getElem?_eq_getElem hi,
    List.getElem?_eq_getElem hi'] using hget

theorem textAt_append (m m' : List Text) (i : Nat) :
    textAt (m ++ m') i = if i < m.length then textAt m i else textAt m' (i - m.length) := by
  simp only [textAt, List.getD_eq_getElem?_getD, List.getElem?_append]
  split <;> rfl

theorem textAt_take (m : List Text) (k i : Nat) :
    textAt (m.take k) i = if i < k then textAt m i else [] := by
  simp only [textAt, List.getD_eq_getElem?_getD, List.getElem?_take]
  split <;> rfl

theorem textAt_drop (m : List Text) (k i : Nat) : textAt (m.drop k) i = textAt m (k + i) := by
  simp only [textAt, List.getD_eq_getElem?_getD, List.getElem?_drop]

theorem textAt_blanks (n i : Nat) : textAt (List.replicate n []) i = [] := by
  simp only [textAt, List.getD_eq_getElem?_getD, List.getElem?_replicate]
  split <;> rfl

theorem textAt_set {m : List Text} {line : Nat} (buf : Text) (h : line < m.length) (i : Nat) :
    textAt (m.set line buf) i = if i = line then buf else textAt m i := by
  simp only [textAt, List.getD_eq_getElem?_getD, List.getElem?_set]
  by_cases hi : i = line
  · subst hi
    simp [h]
  · simp [hi, Ne.symm hi]

theorem length_putLine (m : List Text) (line : Nat) (buf : Text) :
    (putLine m line buf).length = max m.length (line + 1) := by
  simp only [putLine, List.length_set, List.length_append, List.length_replicate]
  omega

theorem textAt_putLine (m : List Text) (line : Nat) (buf : Text) (i : Nat) :
    textAt (putLine m line buf) i = if i = line then buf else textAt m i := by
  have hline : line < (m ++ List.replicate (line + 1 - m.length) ([] : Text)).length := by
    simp only [List.length_append, List.length_replicate]
    omega
  rw [putLine, textAt_set buf hline, textAt_append, textAt_blanks]
  by_cases hi : i < m.length
  · simp [hi]
  · simp [hi, textAt_of_length_le (Nat.le_of_not_lt hi)]

theorem length_insertBlank {m : List Text} {line : Nat} (n : Nat) (h : line ≤ m.length) :
    (insertBlank m line n).length = m.length + n := by
  simp only [insertBlank, List.length_append, List.length_take, List.length_replicate,
    List.length_drop]
  omega

theorem textAt_insertBlank {m : List Text} {line : Nat} (n : Nat) (h : line ≤ m.length) (i : Nat) :
    textAt (insertBlank m line n) i =
      if i < line then textAt m i else if i < line + n then [] else textAt m (i - n) := by
  have hlen : (m.take line).length = line := List.length_take_of_le h
  simp only [insertBlank, textAt_append, textAt_take, textAt_blanks, textAt_drop,
    List.length_append, hlen, List.length_replicate]
  split
  · next h1 =>
    by_cases hi : i < line
    · simp [hi]
    · simp [hi]
  · next h1 =>
    have h2 : ¬ i < line := by omega
    have h3 : line + (i - (line + n)) = i - n := by omega
    simp [h2, h3]

theorem length_deleteLines {m : List Text} {yStart n : Nat} (h : yStart + n ≤ m.length) :
    (deleteLines m yStart n).length = m.length - n := by
  simp only [deleteLines, List.length_append, List.length_take, List.length_drop]
  omega

theorem textAt_deleteLines {m : List Text} {yStart : Nat} (n : Nat) (h : yStart ≤ m.length)
    (i : Nat) :
    textAt (deleteLines m yStart n) i = if i < yStart then textAt m i else textAt m (i + n) := by
  have hlen : (m.take yStart).length = yStart := List.length_take_of_le h
  simp only [deleteLines, textAt_append, textAt_take, textAt_drop, hlen]
  by_cases hi : i < yStart
  · simp [hi]
  · have hsum : yStart + n + (i - yStart) = i + n := by omega
    simp [hi, hsum]

theorem textAt_fetched {plr recs : List Text} {src n : Nat} (h : fetch plr src n = some recs)
    (i : Nat) : textAt recs i = if i < n then textAt plr (src + i) else [] := by
  unfold fetch at h
  split at h
  · obtain rfl := Option.some.inj h
    rw [textAt_take, textAt_drop]
  · cases h

theorem fetch_of_le (plr : List Text) (src n : Nat) (h : src + n ≤ plr.length) :
    ∃ recs, fetch plr src n = some recs ∧ recs.length = n := by
  refine ⟨(plr.drop src).take n, if_pos h, ?_⟩
  simp only [List.length_take, List.length_drop]
  omega

/-- What a store leaves: the records stored, the others as they were. -/
theorem store_of_le (plr recs : List Text) (dst : Nat) (h : dst + recs.length ≤ plr.length) :
    ∃ plr', store plr dst recs = some plr' ∧ plr'.length = plr.length ∧
      ∀ i, textAt plr' i =
        if dst ≤ i ∧ i < dst + recs.length then textAt recs (i - dst) else textAt plr i := by
  refine ⟨_, if_pos h, ?_, ?_⟩
  · simp only [List.length_append, List.length_take, List.length_drop]
    omega
  · intro i
    have hlen : (plr.take dst).length = dst := by
      simp only [List.length_take]
      omega
    simp only [textAt_append, textAt_take, textAt_drop, List.length_append, hlen]
    by_cases h1 : i < dst
    · have h2 : i < dst + recs.length := by omega
      have h3 : ¬ dst ≤ i := by omega
      simp [h1, h2, h3]
    · by_cases h2 : i < dst + recs.length
      · have h3 : dst ≤ i := by omega
        simp [h1, h2, h3]
      · have h3 : dst + recs.length + (i - (dst + recs.length)) = i := by omega
        simp [h2, h3]

theorem memmove_of_le (plr : List Text) (dst src n : Nat) (hsrc : src + n ≤ plr.length)
    (hdst : dst + n ≤ plr.length) :
    ∃ plr', memmove plr dst src n = some plr' ∧ plr'.length = plr.length ∧
      ∀ i, textAt plr' i =
        if dst ≤ i ∧ i < dst + n then textAt plr (i - dst + src) else textAt plr i := by
  obtain ⟨recs, hrecs, hlen⟩ := fetch_of_le plr src n hsrc
  obtain ⟨plr', hplr', hlen', htext⟩ := store_of_le plr recs dst (by omega)
  refine ⟨plr', ?_, hlen', ?_⟩
  · simp only [memmove, hrecs, Option.bind_eq_bind, Option.bind_some]
    exact hplr'
  · intro i
    rw [htext i, textAt_fetched hrecs, hlen]
    by_cases hi : dst ≤ i ∧ i < dst + n
    · have hin : i - dst < n := by omega
      rw [if_pos hi, if_pos hi, if_pos hin, Nat.add_comm]
    · rw [if_neg hi, if_neg hi]

theorem blankLines_of_le (plr : List Text) (dst n : Nat) (h : dst + n ≤ plr.length) :
    ∃ plr', BlankLines n plr dst = some plr' ∧ plr'.length = plr.length ∧
      ∀ i, textAt plr' i = if dst ≤ i ∧ i < dst + n then [] else textAt plr i := by
  obtain ⟨plr', hplr', hlen, htext⟩ := store_of_le plr (List.replicate n []) dst
    (by simpa using h)
  refine ⟨plr', hplr', hlen, ?_⟩
  intro i
  rw [htext i, List.length_replicate, textAt_blanks]

/-- The records of `f` hold the lines of `m` and blanks after them. -/
structure Shows (f : File) (m : List Text) : Prop where
  text : ∀ i, textAt f.plr i = textAt m i
  fits : m.length ≤ f.cLines
  room : f.cLines ≤ f.lSize

theorem Shows.lines {f : File} {m : List Text} (h : Shows f m) (hc : f.cLines = m.length) :
    f.lines = m := by
  have hroom := h.room
  unfold File.lSize at hroom
  apply ext_textAt
  · simp only [File.lines, List.length_take]
    omega
  · intro i
    rw [File.lines, textAt_take, hc]
    split
    · exact h.text i
    · next hi => exact (textAt_of_length_le (Nat.le_of_not_lt hi)).symm

/-- The growth of the array changes no text. -/
theorem growline_spec {f : File} {m : List Text} (h : Shows f m) (line : Nat) :
    Shows (growline line f) m ∧ (growline line f).cLines = f.cLines ∧
      line ≤ (growline line f).lSize ∧ f.lSize ≤ (growline line f).lSize := by
  have hroom := h.room
  unfold File.lSize at hroom
  unfold growline
  split
  · next hgrow =>
    have hline : f.lSize < line ∨ f.plr.length = 0 := by
      rcases hgrow with hnil | hlt
      · exact Or.inr (by rw [hnil]; rfl)
      · exact Or.inl hlt
    unfold File.lSize at hline
    have hlen : (f.plr.take f.cLines ++
        List.replicate (line + DELTA - f.cLines) ([] : Text)).length = line + DELTA := by
      simp only [List.length_append, List.length_take, List.length_replicate]
      omega
    refine ⟨⟨?_, h.fits, ?_⟩, rfl, ?_, ?_⟩
    · intro i
      rw [textAt_append, textAt_take, textAt_blanks]
      have hfits := h.fits
      by_cases hi : i < f.cLines
      · have hin : i < (f.plr.take f.cLines).length := by
          simp only [List.length_take]
          omega
        rw [if_pos hin, if_pos hi]
        exact h.text i
      · have hout : ¬ i < (f.plr.take f.cLines).length := by
          simp only [List.length_take]
          omega
        rw [if_neg hout, textAt_of_length_le (by omega)]
    · show f.cLines ≤ _
      simp only [File.lSize, hlen]
      omega
    · simp only [File.lSize, hlen]
      omega
    · simp only [File.lSize, hlen]
      omega
  · next hgrow =>
    refine ⟨h, rfl, ?_, Nat.le_refl _⟩
    exact Nat.le_of_not_lt fun hlt => hgrow (Or.inr hlt)

/-- `DelLine` without its guard: the lines after the deleted ones move down. -/
theorem removeLines_spec {f : File} {m : List Text} (h : Shows f m) (yStart yEnd : Nat)
    (hse : yStart ≤ yEnd) (hend : yEnd < f.cLines) :
    ∃ f', removeLines f yStart yEnd = some f' ∧ f'.lSize = f.lSize ∧
      f'.cLines = f.cLines - (yEnd - yStart + 1) ∧
      ∀ i, textAt f'.plr i =
        if i < yStart then textAt m i else textAt m (i + (yEnd - yStart + 1)) := by
  have hroom := h.room
  have hfits := h.fits
  unfold File.lSize at hroom
  obtain ⟨plr₁, hplr₁, hlen₁, htext₁⟩ := memmove_of_le f.plr yStart (yEnd + 1)
    (f.cLines - yEnd - 1) (by omega) (by omega)
  obtain ⟨plr₂, hplr₂, hlen₂, htext₂⟩ := blankLines_of_le plr₁
    (f.cLines - (yEnd - yStart + 1)) (yEnd - yStart + 1) (by omega)
  refine ⟨⟨f.cLines - (yEnd - yStart + 1), plr₂⟩, ?_, ?_, rfl, ?_⟩
  · simp only [removeLines, hplr₁, hplr₂, Option.bind_eq_bind, Option.bind_some, Option.pure_def]
  · simp only [File.lSize, hlen₂, hlen₁]
  · intro i
    show textAt plr₂ i = _
    rw [htext₂ i, htext₁ i, h.text, h.text]
    by_cases hi : i < yStart
    · rw [if_neg (by omega), if_neg (by omega), if_pos hi]
    · rw [if_neg hi]
      by_cases hm : i < f.cLines - (yEnd - yStart + 1)
      · have hsrc : i - yStart + (yEnd + 1) = i + (yEnd - yStart + 1) := by omega
        rw [if_neg (by omega), if_pos (by omega), hsrc]
      · rw [textAt_of_length_le (m := m) (i := i + (yEnd - yStart + 1)) (by omega)]
        by_cases hb : i < f.cLines
        · rw [if_pos (by omega)]
        · rw [if_neg (by omega), if_neg (by omega), textAt_of_length_le (by omega)]

/-- `InsLine` without its guard: blank lines appear and the others move up. -/
theorem openLines_spec {f : File} {m : List Text} (h : Shows f m) (line n : Nat)
    (hline : line < f.cLines) :
    ∃ f', openLines f line n = some f' ∧ f.lSize ≤ f'.lSize ∧ f'.cLines = f.cLines + n ∧
      f.cLines + n ≤ f'.lSize ∧
      ∀ i, textAt f'.plr i =
        if i < line then textAt m i else if i < line + n then [] else textAt m (i - n) := by
  obtain ⟨hg, hcl, hroom, hsize⟩ := growline_spec h (f.cLines + n)
  have hfits := h.fits
  unfold File.lSize at hroom hsize
  obtain ⟨plr₁, hplr₁, hlen₁, htext₁⟩ := memmove_of_le (growline (f.cLines + n) f).plr
    (line + n) line (f.cLines - line) (by omega) (by omega)
  obtain ⟨plr₂, hplr₂, hlen₂, htext₂⟩ := blankLines_of_le plr₁ line n (by omega)
  refine ⟨⟨f.cLines + n, plr₂⟩, ?_, ?_, rfl, ?_, ?_⟩
  · simp only [openLines, hcl, hplr₁, hplr₂, Option.bind_eq_bind, Option.bind_some,
      Option.pure_def]
  · simp only [File.lSize, hlen₂, hlen₁]
    exact hsize
  · simp only [File.lSize, hlen₂, hlen₁]
    exact hroom
  · intro i
    show textAt plr₂ i = _
    rw [htext₂ i, htext₁ i, hg.text, hg.text]
    by_cases hi : i < line
    · rw [if_neg (by omega), if_neg (by omega), if_pos hi]
    · rw [if_neg hi]
      by_cases hb : i < line + n
      · rw [if_pos (by omega), if_pos hb]
      · rw [if_neg (by omega), if_neg hb]
        by_cases hm : i < f.cLines + n
        · have hsrc : i - (line + n) + line = i - n := by omega
          rw [if_pos (by omega), hsrc]
        · rw [if_neg (by omega), textAt_of_length_le (by omega), textAt_of_length_le (by omega)]

end SdkTools.Mep
