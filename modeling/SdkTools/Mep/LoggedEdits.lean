import SdkTools.Mep.UndoHistory

/-!
# Logged edits and boundaries

Each edit keeps the editor in agreement with the history of documents, unless a
group begins with a put that makes the file grow.
-/

namespace SdkTools.Mep

set_option autoImplicit false

open Lib

variable {limit : Nat} {e : Editor} {h : History (List Text)}

/-- The first change of a group does not put a line beyond the last one. -/
def PutAllowed (e : Editor) : Op → Prop
  | .puttextline line _ => line < e.file.cLines ∨ e.undo.cur.isBoundary = false
  | _ => True

/-! ## The logged edits -/

theorem Agrees.cur_isBoundary (hag : Agrees limit e h) :
    e.undo.cur.isBoundary = h.pending.isNone := hag.older.isBoundary

/-- The file `puttextline` writes to, grown where the line is beyond the last. -/
theorem puttextline_grown (hag : Agrees limit e h) (line : Nat) :
    ∃ f : File, (if e.file.cLines ≤ line then
        { growline (line + 1) e.file with cLines := line + 1 } else e.file) = f ∧
      Shows f h.now ∧ f.cLines = max h.now.length (line + 1) ∧ line < f.lSize ∧
      e.file.lSize ≤ f.lSize := by
  have hexact := hag.exact
  have hroom := hag.shows.room
  by_cases hline : e.file.cLines ≤ line
  · obtain ⟨hs, hc, hsize, hle⟩ := growline_spec hag.shows (line + 1)
    have hcount : line + 1 = max h.now.length (line + 1) := by omega
    refine ⟨_, if_pos hline, ⟨hs.text, ?_, hsize⟩, hcount, hsize, hle⟩
    show h.now.length ≤ line + 1
    omega
  · have hcount : e.file.cLines = max h.now.length (line + 1) := by omega
    exact ⟨_, if_neg hline, hag.shows, hcount, by omega, Nat.le_refl _⟩

theorem puttextline_agrees (hag : Agrees limit e h) {line : Nat} (buf : Text)
    (hput : PutAllowed e (.puttextline line buf)) :
    ∃ e', puttextline line buf e = some e' ∧
      Agrees limit e' (h.change (putLine h.now line buf)) := by
  obtain ⟨f, hf, hs, hc, hline, hsize⟩ := puttextline_grown hag line
  have hlen : (putLine h.now line buf).length = max h.now.length (line + 1) :=
    length_putLine h.now line buf
  have hget : f.plr[line]? = some (textAt h.now line) := by
    have htext := hs.text line
    rw [List.getElem?_eq_getElem hline]
    simpa [textAt, List.getD_eq_getElem?_getD, List.getElem?_eq_getElem hline] using htext
  have hsize' : (f.plr.set line buf).length = f.plr.length := List.length_set
  have hs' : Shows { f with plr := f.plr.set line buf } (putLine h.now line buf) := by
    refine ⟨?_, Nat.le_of_eq (hlen.trans hc.symm), ?_⟩
    · intro i
      rw [textAt_set buf hline, textAt_putLine, hs.text]
    · show f.cLines ≤ (f.plr.set line buf).length
      rw [hsize']
      exact hs.room
  have hle : e.file.lSize ≤ (f.plr.set line buf).length := by
    rw [hsize']
    exact hsize
  have hc' : f.cLines = (putLine h.now line buf).length := hc.trans hlen.symm
  refine ⟨⟨{ f with plr := f.plr.set line buf },
    LogReplace e.undo f.cLines line (textAt h.now line)⟩, ?_, ?_⟩
  · simp only [puttextline, hf, hget, Option.bind_eq_bind, Option.bind_some, Option.pure_def]
  · rcases LogReplace_cases hag f.cLines line (textAt h.now line) with hlog | ⟨v, length, hcur, hlog⟩
    · rw [hlog]
      have hlogs : Logs true (.replace line (textAt h.now line) f.cLines) h.now
          (putLine h.now line buf) := by
        rw [hc']
        exact .replace rfl rfl
      refine hag.linkAtHead hlogs ?_ hs' hc' hle
      intro hnone
      have hcur := hag.cur_isBoundary
      rw [hnone] at hcur
      have hin : line < h.now.length := by
        rw [← hag.exact]
        rcases hput with hin | hopen
        · exact hin
        · rw [hcur] at hopen
          cases hopen
      show f.cLines = h.now.length
      omega
    · rw [hlog]
      have hpend : h.pending ≠ none := by
        intro hnone
        have hb := hag.cur_isBoundary
        rw [hcur, hnone] at hb
        cases hb
      have hflink := hag.opened hpend
      have hfuture : h.future = [] := by
        have hnewer := hag.newer
        rw [hflink] at hnewer
        exact hnewer.future_of_nil
      have hcount := hag.count
      have hbound := hag.bound
      rw [hfuture] at hcount hbound
      refine ⟨hs', hc', ?_, ?_, fun _ => hflink, hcount, hbound⟩
      · have holder := hag.older.mono hle
        rw [hcur, Option.isNone_eq_false_iff.mpr (Option.isSome_iff_ne_none.mpr hpend)] at holder
        show Older (f.plr.set line buf).length false
          (.replace line v f.cLines :: e.undo.blink) (putLine h.now line buf) _
        rw [hc']
        exact holder.replace_again buf
      · show Newer _ true e.undo.flink _ []
        rw [hflink]
        exact .head

theorem insLine_agrees (hag : Agrees limit e h) (line n : Nat) :
    ∃ e', InsLine true line n e = some e' ∧
      Agrees limit e' (historyStep limit h (.insLine line n)) := by
  have hexact := hag.exact
  by_cases hline : line < h.now.length
  · obtain ⟨f, hf, hsize, hc, hroom, htext⟩ := openLines_spec hag.shows line n (by omega)
    have hguard : ¬ line ≥ e.file.cLines := by omega
    have hlen := length_insertBlank n (Nat.le_of_lt hline)
    have hc' : f.cLines = (insertBlank h.now line n).length := by omega
    refine ⟨⟨f, LogInsert e.undo e.file.cLines line n⟩, ?_, ?_⟩
    · simp only [InsLine, if_neg hguard, hf, Option.bind_eq_bind, Option.bind_some,
        Option.pure_def, if_true]
    · simp only [historyStep, if_pos hline, LogInsert, hexact]
      refine hag.linkAtHead (.insert hline rfl) (fun _ => rfl) ⟨?_, Nat.le_of_eq hc'.symm, ?_⟩
        hc' hsize
      · intro i
        rw [htext i, textAt_insertBlank n (Nat.le_of_lt hline)]
      · omega
  · have hguard : line ≥ e.file.cLines := by omega
    refine ⟨e, if_pos hguard, ?_⟩
    simpa only [historyStep, if_neg hline] using hag

theorem delLine_agrees (hag : Agrees limit e h) (yStart : Nat) (yEnd : Int) :
    ∃ e', DelLine true yStart yEnd e = some e' ∧
      Agrees limit e' (historyStep limit h (.delLine yStart yEnd)) := by
  have hexact := hag.exact
  have hroom := hag.shows.room
  by_cases hrange : yStart < h.now.length ∧ (yStart : Int) ≤ yEnd
  · have hguard : ¬ (yStart ≥ e.file.cLines ∨ (yStart : Int) > yEnd) := by omega
    obtain ⟨last, hlast⟩ : ∃ last, (min yEnd ((e.file.cLines : Int) - 1)).toNat = last := ⟨_, rfl⟩
    have hn : min (yEnd.toNat + 1) h.now.length - yStart = last - yStart + 1 := by omega
    obtain ⟨f, hf, hsize, hc, htext⟩ := removeLines_spec hag.shows yStart last
      (by omega) (by omega)
    obtain ⟨vaLines, hfetch, hva⟩ := fetch_of_le e.file.plr yStart
      (last - yStart + 1) (by unfold File.lSize at hroom; omega)
    have hend : yStart + (last - yStart + 1) ≤ h.now.length := by omega
    have hlen := length_deleteLines hend
    have hc' : f.cLines = (deleteLines h.now yStart (last - yStart + 1)).length := by omega
    refine ⟨⟨f, LinkAtHead e.undo (.delete yStart (last - yStart + 1) vaLines e.file.cLines)⟩,
      ?_, ?_⟩
    · simp only [DelLine, if_neg hguard, hlast, LogDelete, hfetch, hf, Option.bind_eq_bind,
        Option.bind_some, Option.pure_def, if_true]
    · simp only [historyStep, if_pos hrange, hn, hexact]
      refine hag.linkAtHead (.delete (by omega) hend rfl hva ?_) (fun _ => rfl)
        ⟨?_, Nat.le_of_eq hc'.symm, ?_⟩ hc' (Nat.le_of_eq hsize.symm)
      · intro i hi
        show textAt vaLines i = textAt h.now (yStart + i)
        rw [textAt_fetched hfetch, if_pos hi, hag.shows.text]
      · intro i
        rw [htext i, textAt_deleteLines _ (Nat.le_of_lt hrange.1)]
      · omega
  · have hguard : yStart ≥ e.file.cLines ∨ (yStart : Int) > yEnd := by omega
    refine ⟨e, if_pos hguard, ?_⟩
    simpa only [historyStep, if_neg hrange] using hag

/-! ## Boundaries -/

theorem logBoundary_agrees (hag : Agrees limit e h) :
    ∃ undo, LogBoundary limit e.undo = some undo ∧
      Agrees limit ⟨e.file, undo⟩ (h.boundary limit) := by
  have hb := hag.cur_isBoundary
  cases hpend : h.pending with
  | none =>
    rw [hpend] at hb
    refine ⟨e.undo, if_pos hb, ?_⟩
    rw [History.boundary_of_closed limit hpend]
    exact hag
  | some a =>
    rw [hpend] at hb
    have hnow : h.now = a := by simp [History.now, hpend]
    have hflink : e.undo.flink = [] := hag.opened (by rw [hpend]; exact Option.some_ne_none a)
    have hfuture : h.future = [] := by
      have hnewer := hag.newer
      rw [hflink] at hnewer
      exact hnewer.future_of_nil
    have hcount := hag.count
    have hbound := hag.bound
    rw [hfuture, List.length_nil] at hcount hbound
    have holder : Older e.file.lSize true (.boundary :: e.undo.cur :: e.undo.blink) h.now
        (h.now :: h.latest :: h.older) := .boundary hag.older
    have hcl : freeHeads e.undo.flink.reverse e.undo.cUndo = (h.older.length : Int) := by
      rw [hflink]
      show e.undo.cUndo = _
      omega
    have hbnd : h.boundary limit = ⟨none, a, (h.latest :: h.older).take limit, h.future⟩ := by
      simp only [History.boundary, hpend]
    have hnewer : Newer e.file.lSize true [] h.now [] := .head
    by_cases hfits : h.older.length + 1 ≤ limit
    · have hcount' : (h.older.length : Int) + 1 ≤ limit := by omega
      have hstop := freeTails_stop (c := (h.older.length : Int) + 1) hcount'
        (Rec.boundary :: e.undo.cur :: e.undo.blink).reverse
      have htake : (h.latest :: h.older).take limit = h.latest :: h.older :=
        List.take_of_length_le (by simpa using hfits)
      refine ⟨⟨.boundary, e.undo.cur :: e.undo.blink, [], (h.older.length : Int) + 1⟩, ?_, ?_⟩
      · rw [← hcl] at hstop
        rw [LogBoundary_open hb hstop, List.reverse_reverse, hcl]
        rfl
      · rw [hbnd, htake, hfuture]
        refine ⟨hnow ▸ hag.shows, hnow ▸ hag.exact, hnow ▸ holder, hnow ▸ hnewer, fun _ => rfl,
          ?_, ?_⟩
        · show (h.older.length : Int) + 1 = _
          simp only [List.length_cons, List.length_nil]
          omega
        · simpa using hfits
    · obtain ⟨pre, mid, hrecs, hmid, hkept⟩ := holder.split_oldest (by simp)
      have hdrop : (h.now :: h.latest :: h.older).dropLast =
          h.now :: (h.latest :: h.older).take limit := by
        have hlim : limit = h.older.length := by omega
        rw [List.dropLast_eq_take, hlim]
        rfl
      have hpre : pre ++ [Rec.boundary] = .boundary :: (pre ++ [Rec.boundary]).tail := by
        cases pre with
        | nil => rfl
        | cons r pre =>
          obtain ⟨rfl, -⟩ := List.cons.inj hrecs
          rfl
      rw [hpre, hdrop] at hkept
      refine ⟨⟨.boundary, (pre ++ [Rec.boundary]).tail, [], h.older.length⟩, ?_, ?_⟩
      · have hrev : (Rec.boundary :: e.undo.cur :: e.undo.blink).reverse =
            .boundary :: (mid.reverse ++ .boundary :: pre.reverse) := by
          rw [hrecs]
          simp
        have htails : freeTails limit (Rec.boundary :: e.undo.cur :: e.undo.blink).reverse
            (freeHeads e.undo.flink.reverse e.undo.cUndo + 1) =
              some (.boundary :: pre.reverse, (h.older.length : Int)) := by
          rw [hrev, hcl, freeTails_group (by omega) _ _ _ (by simpa using hmid),
            Int.add_sub_cancel, freeTails_stop (by omega)]
        rw [LogBoundary_open hb htails, List.reverse_cons, List.reverse_reverse]
      · rw [hbnd, hfuture]
        refine ⟨hnow ▸ hag.shows, hnow ▸ hag.exact, hnow ▸ hkept, hnow ▸ hnewer, fun _ => rfl,
          ?_, ?_⟩
        · show (h.older.length : Int) = _
          simp only [List.length_take, List.length_cons, List.length_nil]
          omega
        · simp only [List.length_take, List.length_cons, List.length_nil]
          omega

end SdkTools.Mep
