import SdkTools.Mep.LoggedEdits

/-!
# Undo and redo over whole runs

Each turn of the undo command moves one record on; from boundary to boundary it
restores the document there. Every run agrees with the history of documents, as
long as at least one group is retained and no group begins with a put that makes
the file grow.
-/

namespace SdkTools.Mep

set_option autoImplicit false

open Lib

variable {limit : Nat} {e : Editor} {h : History (List Text)} {m : List Text}
  {past future : List (List Text)} {b : Bool}

/-! ## Undo -/

/-- Between two turns of an undo; at a boundary the line count is right again. -/
structure Undoing (e : Editor) (b : Bool) (m : List Text) (past future : List (List Text)) :
    Prop where
  shows : Shows e.file m
  exact : b = true → e.file.cLines = m.length
  older : Older e.file.lSize b (e.undo.cur :: e.undo.blink) m past
  newer : Newer e.file.lSize b e.undo.flink m future
  count : e.undo.cUndo + 1 = past.length + future.length

theorem unDoRec_change (hu : Undoing e false m past future) :
    ∃ e' b' m', UnDoRec e = some e' ∧ Undoing e' b' m' past future ∧
      e'.undo.blink.length + 1 = e.undo.blink.length ∧ e'.undo.cur.isBoundary = b' := by
  obtain ⟨file, cur, blink, flink, cUndo⟩ := e
  obtain ⟨hs, -, holder, hnewer, hcount⟩ := hu
  cases holder with
  | change hr hm hb holder =>
    rename_i b' m'
    obtain ⟨f, r', hf, hr', hlen, hsf, hcf, hsize⟩ := undoChange_spec (e := ⟨file, cur, blink,
      flink, cUndo⟩) hr hs holder.length_le hm
    cases blink with
    | nil => cases holder
    | cons prev blink =>
      refine ⟨⟨f, prev, blink, r' :: flink, cUndo⟩, b', m', ?_, ⟨hsf, ?_, holder.mono hsize, ?_,
        hcount⟩, rfl, holder.isBoundary⟩
      · simp only [UnDoRec, hf, Option.bind_eq_bind, Option.bind_some, Option.pure_def]
      · intro hb'
        exact hcf.trans (hb hb')
      · refine .change hr' (Nat.le_trans hm hsize) ?_ (hnewer.mono hsize)
        intro hb'
        exact hlen.trans (hb hb')

theorem unDoRec_boundary {p : List Text} (hu : Undoing e true m (m :: p :: past) future) :
    ∃ e' b', UnDoRec e = some e' ∧ Undoing e' b' m (p :: past) (m :: future) ∧
      e'.undo.blink.length + 1 = e.undo.blink.length ∧ e'.undo.cur.isBoundary = b' := by
  obtain ⟨file, cur, blink, flink, cUndo⟩ := e
  obtain ⟨hs, hexact, holder, hnewer, hcount⟩ := hu
  cases holder with
  | boundary holder =>
    rename_i b'
    cases blink with
    | nil => cases holder
    | cons prev blink =>
      refine ⟨⟨file, prev, blink, .boundary :: flink, cUndo⟩, b', rfl, ⟨hs, fun _ => hexact rfl,
        holder, .boundary hnewer, ?_⟩, rfl, holder.isBoundary⟩
      simp only [List.length_cons] at hcount ⊢
      omega

/-- The loop of an undo inside a group ends at the boundary before it. -/
theorem untilBoundary_unDoRec (k : Nat) (hu : Undoing e false m past future)
    (hk : e.undo.blink.length ≤ k) :
    ∃ e' p past', untilBoundary UnDoRec k e = some e' ∧ past = p :: past' ∧
      Undoing e' true p past future ∧ e'.undo.cur.isBoundary = true := by
  induction k generalizing e m with
  | zero =>
    obtain ⟨e', b', m', -, -, hlen, -⟩ := unDoRec_change hu
    omega
  | succ k ih =>
    obtain ⟨e', b', m', hturn, hu', hlen, hcur⟩ := unDoRec_change hu
    simp only [untilBoundary, hturn, Option.bind_eq_bind, Option.bind_some, hcur]
    cases b' with
    | true =>
      obtain ⟨past', rfl⟩ := hu'.older.past_of_boundary
      exact ⟨e', m', past', rfl, rfl, hu', hcur⟩
    | false => exact ih hu' (by omega)

theorem undo_group {p : List Text} (hu : Undoing e true m (m :: p :: past) future) :
    ∃ e', untilBoundary UnDoRec e.undo.blink.length e = some e' ∧
      Undoing e' true p (p :: past) (m :: future) ∧ e'.undo.cur.isBoundary = true := by
  obtain ⟨e', b', hturn, hu', hlen, hcur⟩ := unDoRec_boundary hu
  rw [← hlen]
  simp only [untilBoundary, hturn, Option.bind_eq_bind, Option.bind_some, hcur]
  cases b' with
  | true =>
    obtain ⟨past', hpast⟩ := hu'.older.past_of_boundary
    obtain ⟨rfl, rfl⟩ := List.cons.inj hpast
    exact ⟨e', rfl, hu', hcur⟩
  | false =>
    obtain ⟨e'', p', past', hloop, hpast, hu'', hcur''⟩ :=
      untilBoundary_unDoRec e'.undo.blink.length hu' (Nat.le_refl _)
    obtain ⟨rfl, rfl⟩ := List.cons.inj hpast
    exact ⟨e'', hloop, hu'', hcur''⟩

/-! ## Redo -/

/-- Between two turns of a redo: the current record is the next to make again. -/
structure Redoing (e : Editor) (b : Bool) (m : List Text) (past future : List (List Text)) :
    Prop where
  shows : Shows e.file m
  exact : e.file.cLines = m.length
  older : Older e.file.lSize b e.undo.blink m past
  newer : Newer e.file.lSize b (e.undo.cur :: e.undo.flink) m future
  count : e.undo.cUndo + 1 = past.length + future.length

theorem reDoRec_change (hr : Redoing e b m past future) (hcur : e.undo.cur.isBoundary = false) :
    ∃ e' m', ReDoRec e = some e' ∧ Redoing e' false m' past future ∧
      e'.undo.flink.length + 1 = e.undo.flink.length := by
  obtain ⟨file, cur, blink, flink, cUndo⟩ := e
  obtain ⟨hs, hexact, holder, hnewer, hcount⟩ := hr
  cases hnewer with
  | boundary hnewer => cases hcur
  | change hr hm hb hnewer =>
    rename_i m'
    obtain ⟨f, r', hf, hr', hlen, hsf, hcf, hsize⟩ := redoChange_spec (e := ⟨file, cur, blink,
      flink, cUndo⟩) hr hs hexact hm
    cases flink with
    | nil => cases hnewer
    | cons next flink =>
      refine ⟨⟨f, next, r' :: blink, flink, cUndo⟩, m', ?_, ⟨hsf, hcf, ?_, hnewer.mono hsize,
        hcount⟩, rfl⟩
      · simp only [ReDoRec, hf, Option.bind_eq_bind, Option.bind_some, Option.pure_def]
      · refine .change hr' (Nat.le_trans hm hsize) ?_ (holder.mono hsize)
        intro hb'
        exact hlen.trans (hb hb')

/-- A redo arrives at a boundary. -/
theorem Redoing.arrive (hr : Redoing e b m past future) (hcur : e.undo.cur.isBoundary = true) :
    ∃ future', future = m :: future' ∧ Undoing e true m (m :: past) future' := by
  obtain ⟨file, cur, blink, flink, cUndo⟩ := e
  obtain ⟨hs, hexact, holder, hnewer, hcount⟩ := hr
  cases hnewer with
  | boundary hnewer =>
    rename_i future'
    refine ⟨future', rfl, hs, fun _ => hexact, .boundary holder, hnewer, ?_⟩
    simp only [List.length_cons] at hcount ⊢
    omega
  | change hr hm hb hnewer =>
    rw [hr.not_boundary] at hcur
    cases hcur

theorem untilBoundary_reDoRec (k : Nat) (hr : Redoing e b m past future)
    (hcur : e.undo.cur.isBoundary = false) (hk : e.undo.flink.length ≤ k) :
    ∃ e' m' future', untilBoundary ReDoRec k e = some e' ∧ future = m' :: future' ∧
      Undoing e' true m' (m' :: past) future' ∧ e'.undo.cur.isBoundary = true := by
  induction k generalizing e m b with
  | zero =>
    obtain ⟨e', m', -, -, hlen⟩ := reDoRec_change hr hcur
    omega
  | succ k ih =>
    obtain ⟨e', m', hturn, hr', hlen⟩ := reDoRec_change hr hcur
    simp only [untilBoundary, hturn, Option.bind_eq_bind, Option.bind_some]
    cases hcur' : e'.undo.cur.isBoundary with
    | true =>
      obtain ⟨future', hfuture, hu⟩ := hr'.arrive hcur'
      exact ⟨e', m', future', rfl, hfuture, hu, hcur'⟩
    | false => exact ih hr' hcur' (by omega)

theorem redo_group (hu : Undoing e true m (m :: past) future) (hne : e.undo.flink ≠ [])
    (hcur : e.undo.cur.isBoundary = true) :
    ∃ e' m' future', untilBoundary ReDoRec e.undo.flink.length e = some e' ∧
      future = m' :: future' ∧ Undoing e' true m' (m' :: m :: past) future' ∧
      e'.undo.cur.isBoundary = true := by
  obtain ⟨file, cur, blink, flink, cUndo⟩ := e
  obtain ⟨hs, hexact, holder, hnewer, hcount⟩ := hu
  cases flink with
  | nil => exact absurd rfl hne
  | cons next flink =>
    have hr : Redoing ⟨file, next, cur :: blink, flink, cUndo⟩ true m (m :: past) future :=
      ⟨hs, hexact rfl, holder, hnewer, hcount⟩
    have hturn : ReDoRec ⟨file, cur, blink, next :: flink, cUndo⟩ =
        some ⟨file, next, cur :: blink, flink, cUndo⟩ := by
      cases cur with
      | boundary => rfl
      | replace _ _ _ => cases hcur
      | insert _ _ _ => cases hcur
      | delete _ _ _ _ => cases hcur
    simp only [List.length_cons, untilBoundary, hturn, Option.bind_eq_bind, Option.bind_some]
    cases hnext : next.isBoundary with
    | true =>
      obtain ⟨future', hfuture, hu⟩ := hr.arrive hnext
      exact ⟨_, m, future', rfl, hfuture, hu, hnext⟩
    | false => exact untilBoundary_reDoRec flink.length hr hnext (Nat.le_refl _)

/-! ## The undo command -/

theorem Agrees.undoing (hag : Agrees limit e h) (hclosed : h.pending = none) :
    Undoing e true h.latest (h.latest :: h.older) h.future := by
  have hnow : h.now = h.latest := History.now_of_closed hclosed
  have holder := hag.older
  rw [hclosed] at holder
  refine ⟨hnow ▸ hag.shows, fun _ => hnow ▸ hag.exact, hnow ▸ holder, hnow ▸ hag.newer, ?_⟩
  rw [hag.count]
  simp only [List.length_cons]
  omega

theorem Undoing.agrees {a : List Text} (hu : Undoing e true a (a :: past) future)
    (hbound : past.length + future.length ≤ limit) :
    Agrees limit e ⟨none, a, past, future⟩ := by
  refine ⟨hu.shows, hu.exact rfl, hu.older, hu.newer, fun hne => absurd rfl hne, ?_, hbound⟩
  have hcount := hu.count
  simp only [List.length_cons] at hcount ⊢
  omega

theorem zundo_undo_agrees (hlimit : 1 ≤ limit) (hag : Agrees limit e h) :
    ∃ e', zundo limit false e = some e' ∧ Agrees limit e' (h.undo limit) := by
  obtain ⟨undo, hlog, hag'⟩ := logBoundary_agrees hag
  have hclosed := History.boundary_pending limit h
  cases holder : (h.boundary limit).older with
  | nil =>
    -- Nothing is open and the list is at its tail: the command does nothing.
    have hpend : h.pending = none := by
      cases hpend : h.pending with
      | none => rfl
      | some a =>
        have htake : (h.latest :: h.older).take limit = [] := by
          simpa only [History.boundary, hpend] using holder
        have hlen := congrArg List.length htake
        simp only [List.length_take, List.length_cons, List.length_nil] at hlen
        omega
    have hsame := History.boundary_of_closed limit hpend
    rw [hsame] at holder
    have hblink : e.undo.blink = [] := by
      apply hag.older.eq_nil_iff.mpr
      rw [hpend, holder]
      exact ⟨rfl, rfl⟩
    refine ⟨e, ?_, ?_⟩
    · simp [zundo, fundoable, hblink]
    · have hback : h.undo limit = h := by
        rw [History.undo, hsame, History.back, holder]
      rw [hback]
      exact hag
  | cons p older =>
    have hu := hag'.undoing hclosed
    rw [holder] at hu
    obtain ⟨e', hloop, hu', -⟩ := undo_group hu
    have hbound := hag'.bound
    rw [holder, List.length_cons] at hbound
    refine ⟨e', ?_, ?_⟩
    · have hfundo : fundoable false e.undo = true := by
        have hne : e.undo.blink ≠ [] := by
          intro hnil
          obtain ⟨hnone, hone⟩ := hag.older.eq_nil_iff.mp hnil
          have hsame := History.boundary_of_closed limit
            (Option.isNone_iff_eq_none.mp hnone)
          rw [← hsame, holder] at hone
          simp at hone
        simpa [fundoable] using hne
      simp only [zundo, hfundo, hlog, Bool.not_true, Bool.false_eq_true, if_false,
        Option.bind_eq_bind, Option.bind_some]
      exact hloop
    · have hback : h.undo limit = ⟨none, p, older, (h.boundary limit).latest ::
          (h.boundary limit).future⟩ := by
        rw [History.undo, History.back, holder]
      rw [hback]
      refine hu'.agrees ?_
      simp only [List.length_cons]
      omega

theorem zundo_redo_agrees (hag : Agrees limit e h) :
    ∃ e', zundo limit true e = some e' ∧ Agrees limit e' h.redo := by
  by_cases hnil : e.undo.flink = []
  · have hfuture : h.future = [] := by
      have hnewer := hag.newer
      rw [hnil] at hnewer
      exact hnewer.future_of_nil
    refine ⟨e, ?_, ?_⟩
    · simp [zundo, fundoable, hnil]
    · have hsame : h.redo = h := by rw [History.redo, hfuture]
      rw [hsame]
      exact hag
  · have hclosed : h.pending = none := by
      by_contra hpend
      exact hnil (hag.opened hpend)
    have hcur : e.undo.cur.isBoundary = true := by
      rw [hag.cur_isBoundary, hclosed]
      rfl
    obtain ⟨e', m', future', hloop, hfuture, hu, -⟩ :=
      redo_group (hag.undoing hclosed) hnil hcur
    have hbound := hag.bound
    rw [hfuture, List.length_cons] at hbound
    refine ⟨e', ?_, ?_⟩
    · have hfundo : fundoable true e.undo = true := by simpa [fundoable] using hnil
      have hlog : LogBoundary limit e.undo = some e.undo := if_pos hcur
      simp only [zundo, hfundo, hlog, Bool.not_true, Bool.false_eq_true, if_false, if_true,
        Option.bind_eq_bind, Option.bind_some]
      exact hloop
    · have hredo : h.redo = ⟨none, m', h.latest :: h.older, future'⟩ := by
        rw [History.redo, hfuture]
      rw [hredo]
      refine hu.agrees ?_
      simp only [List.length_cons]
      omega

/-! ## Runs -/

theorem step_agrees (hlimit : 1 ≤ limit) (hag : Agrees limit e h) (op : Op)
    (hput : PutAllowed e op) :
    ∃ e', step limit e op = some e' ∧ Agrees limit e' (historyStep limit h op) := by
  cases op with
  | puttextline line buf => exact puttextline_agrees hag buf hput
  | insLine line n => exact insLine_agrees hag line n
  | delLine yStart yEnd => exact delLine_agrees hag yStart yEnd
  | logBoundary =>
    obtain ⟨undo, hlog, hag'⟩ := logBoundary_agrees hag
    exact ⟨⟨e.file, undo⟩, by simp only [step, hlog, Option.map_some], hag'⟩
  | zundo fMeta =>
    cases fMeta with
    | false => exact zundo_undo_agrees hlimit hag
    | true => exact zundo_redo_agrees hag

/-- Every command of the run is allowed where it is given. -/
def PutsAllowed (limit : Nat) : Editor → List Op → Prop
  | _, [] => True
  | e, op :: ops => PutAllowed e op ∧ ∀ e', step limit e op = some e' → PutsAllowed limit e' ops

theorem run_agrees (hlimit : 1 ≤ limit) (hag : Agrees limit e h) (ops : List Op)
    (hputs : PutsAllowed limit e ops) :
    ∃ e', run limit e ops = some e' ∧ Agrees limit e' (historyRun limit h ops) := by
  induction ops generalizing e h with
  | nil => exact ⟨e, rfl, hag⟩
  | cons op ops ih =>
    obtain ⟨e₁, hstep, hag₁⟩ := step_agrees hlimit hag op hputs.1
    obtain ⟨e₂, hrun, hag₂⟩ := ih hag₁ (hputs.2 e₁ hstep)
    refine ⟨e₂, ?_, hag₂⟩
    simp only [run, hstep, Option.bind_eq_bind, Option.bind_some]
    exact hrun

/-- The line array holds the lines of the file and blank records after them. -/
structure File.Valid (f : File) : Prop where
  room : f.cLines ≤ f.lSize
  blank : ∀ i, f.cLines ≤ i → textAt f.plr i = []

theorem File.Valid.length_lines {f : File} (hf : f.Valid) : f.lines.length = f.cLines := by
  have hroom := hf.room
  unfold File.lSize at hroom
  simp only [File.lines, List.length_take]
  omega

theorem File.Valid.open_agrees {f : File} (hf : f.Valid) :
    Agrees limit (Editor.open f) (History.start f.lines) := by
  have hlen := hf.length_lines
  have hroom := hf.room
  refine ⟨⟨?_, Nat.le_of_eq hlen, hroom⟩, hlen.symm, .tail ?_, .head, fun _ => rfl, rfl,
    Nat.zero_le _⟩
  · intro i
    show textAt f.plr i = textAt (f.plr.take f.cLines) i
    rw [textAt_take]
    split
    · rfl
    · next hi => exact hf.blank i (Nat.le_of_not_lt hi)
  · show f.lines.length ≤ f.lSize
    omega

/-- The edits that change the file and are logged. -/
def Logged (e : Editor) : Op → Prop
  | .puttextline _ _ => True
  | .insLine line _ => line < e.file.cLines
  | .delLine yStart yEnd => yStart < e.file.cLines ∧ (yStart : Int) ≤ yEnd
  | _ => False

/-- What undo and redo promise of an editor whose past is the history `h`. -/
structure UndoCorrect (limit : Nat) (e : Editor) (h : History (List Text)) : Prop where
  lines : e.file.lines = h.now
  /-- `j` undos and then `i` redos lead to the boundary `j - i` groups back -/
  undoRedo : ∀ j i, i ≤ j → j < (h.boundaries limit).length →
    ∃ e', run limit e (List.replicate j (.zundo false) ++ List.replicate i (.zundo true)) =
      some e' ∧ some e'.file.lines = (h.boundaries limit)[j - i]?
  undoOldest : (h.boundaries limit).length = 1 → step limit e (.zundo false) = some e
  redoNewest : h.future = [] → step limit e (.zundo true) = some e
  /-- an edit leaves nothing to redo and keeps the boundaries before it -/
  edit : ∀ op, Logged e op → PutAllowed e op → ∃ e', step limit e op = some e' ∧
    step limit e' (.zundo true) = some e' ∧
    ∀ j, j < ((h.latest :: h.older).take limit).length →
      ∃ e'', run limit e' (List.replicate (j + 1) (.zundo false)) = some e'' ∧
        some e''.file.lines = ((h.latest :: h.older).take limit)[j]?

theorem putsAllowed_zundo (e : Editor) (j i : Nat) :
    PutsAllowed limit e (List.replicate j (.zundo false) ++ List.replicate i (.zundo true)) := by
  induction j generalizing e with
  | succ j ih => exact ⟨trivial, fun e' _ => ih e'⟩
  | zero =>
    induction i generalizing e with
    | zero => exact trivial
    | succ i ih => exact ⟨trivial, fun e' _ => ih e'⟩

theorem historyRun_zundo (h : History (List Text)) (j i : Nat) :
    historyRun limit h (List.replicate j (.zundo false) ++ List.replicate i (.zundo true)) =
      (h.undoN limit j).redoN i := by
  induction j generalizing h with
  | succ j ih => exact ih (h.undo limit)
  | zero =>
    induction i generalizing h with
    | zero => rfl
    | succ i ih => exact ih h.redo

theorem Agrees.undoRedo (hlimit : 1 ≤ limit) (hag : Agrees limit e h) {j i : Nat} (hij : i ≤ j)
    (hj : j < (h.boundaries limit).length) :
    ∃ e', run limit e (List.replicate j (.zundo false) ++ List.replicate i (.zundo true)) =
      some e' ∧ some e'.file.lines = (h.boundaries limit)[j - i]? := by
  obtain ⟨e', hrun, hag'⟩ := run_agrees hlimit hag _ (putsAllowed_zundo e j i)
  refine ⟨e', hrun, ?_⟩
  rw [historyRun_zundo] at hag'
  rw [hag'.shows.lines hag'.exact]
  exact History.now_redoN_undoN hij (Nat.lt_succ_iff.mp hj)

theorem Agrees.redoNewest (hag : Agrees limit e h) (hfuture : h.future = []) :
    step limit e (.zundo true) = some e := by
  have hnil : e.undo.flink = [] := by
    have hcount := hag.newer.countP_boundary
    by_contra hne
    have hlast := hag.newer.getLast_boundary hne
    have hmem := List.mem_of_getLast? hlast
    have hpos : 0 < e.undo.flink.countP Rec.isBoundary :=
      List.countP_pos_iff.mpr ⟨.boundary, hmem, rfl⟩
    rw [hcount, hfuture] at hpos
    exact Nat.lt_irrefl 0 hpos
  simp [step, zundo, fundoable, hnil]

/-- An effective edit opens the latest group and has no future. -/
theorem historyStep_logged (hag : Agrees limit e h) {op : Op} (hop : Logged e op) :
    ∃ m, historyStep limit h op = h.change m := by
  have hexact := hag.exact
  cases op with
  | puttextline line buf => exact ⟨_, rfl⟩
  | insLine line n =>
    have hline : line < h.now.length := by
      rw [← hexact]
      exact hop
    exact ⟨_, if_pos hline⟩
  | delLine yStart yEnd =>
    have hrange : yStart < h.now.length ∧ (yStart : Int) ≤ yEnd := by
      rw [← hexact]
      exact hop
    exact ⟨_, if_pos hrange⟩
  | logBoundary => exact absurd hop id
  | zundo fMeta => exact absurd hop id

theorem Agrees.undoCorrect (hlimit : 1 ≤ limit) (hag : Agrees limit e h) :
    UndoCorrect limit e h := by
  refine ⟨hag.shows.lines hag.exact, fun j i => hag.undoRedo hlimit, ?_, hag.redoNewest, ?_⟩
  · intro hone
    have hnil : (h.boundary limit).older = [] :=
      List.eq_nil_of_length_eq_zero (Nat.succ.inj hone)
    have hpend : h.pending = none := by
      cases hpend : h.pending with
      | none => rfl
      | some a =>
        have hlen : ((h.latest :: h.older).take limit).length = 0 := by
          have hlen := congrArg List.length hnil
          simpa only [History.boundary, hpend, List.length_nil] using hlen
        simp only [List.length_take, List.length_cons] at hlen
        omega
    rw [History.boundary_of_closed limit hpend] at hnil
    have hblink : e.undo.blink = [] := by
      apply hag.older.eq_nil_iff.mpr
      rw [hpend, hnil]
      exact ⟨rfl, rfl⟩
    simp [step, zundo, fundoable, hblink]
  · intro op hop hput
    obtain ⟨e', hstep, hag'⟩ := step_agrees hlimit hag op hput
    obtain ⟨m, hm⟩ := historyStep_logged hag hop
    rw [hm] at hag'
    refine ⟨e', hstep, hag'.redoNewest rfl, ?_⟩
    intro j hj
    have hlen : j + 1 < ((h.change m).boundaries limit).length := Nat.succ_lt_succ hj
    obtain ⟨e'', hrun, hlines⟩ := hag'.undoRedo hlimit (Nat.zero_le _) hlen
    exact ⟨e'', by simpa using hrun, hlines⟩

/-- Every run of edits, boundaries, undos and redos keeps the promise, when at
least one group is retained and no group begins with a put beyond the last line. -/
theorem undo_runs_correct (limit : Nat) (f : File) (ops : List Op) (hf : f.Valid)
    (hlimit : 1 ≤ limit) (hputs : PutsAllowed limit (Editor.open f) ops) :
    ∃ e, run limit (Editor.open f) ops = some e ∧
      UndoCorrect limit e (historyRun limit (History.start f.lines) ops) := by
  obtain ⟨e, hrun, hag⟩ := run_agrees hlimit hf.open_agrees ops hputs
  exact ⟨e, hrun, hag.undoCorrect hlimit⟩

theorem undo_runs_correct_two_groups :
    ∃ e, run 10 (Editor.open ⟨1, [[97]]⟩)
        [.puttextline 0 [98], .logBoundary, .insLine 0 2, .delLine 1 7, .zundo false] = some e ∧
      UndoCorrect 10 e (historyRun 10 (History.start (File.lines ⟨1, [[97]]⟩))
        [.puttextline 0 [98], .logBoundary, .insLine 0 2, .delLine 1 7, .zundo false]) := by
  apply undo_runs_correct 10 ⟨1, [[97]]⟩ _
  · refine ⟨Nat.le_refl 1, ?_⟩
    intro i hi
    exact textAt_of_length_le hi
  · exact Nat.le_add_left 1 9
  · refine ⟨Or.inl Nat.zero_lt_one, fun _ _ => ⟨trivial, fun _ _ => ⟨trivial, fun _ _ => ?_⟩⟩⟩
    exact ⟨trivial, fun _ _ => ⟨trivial, fun _ _ => trivial⟩⟩

/-- A group that begins with a put beyond the last line: undone, the file keeps
the blank lines of its growth. -/
theorem grown_put_not_undone :
    ¬ ∃ e, run 10 (Editor.open ⟨1, [[97]]⟩) [.puttextline 2 [98], .logBoundary] = some e ∧
      UndoCorrect 10 e (historyRun 10 (History.start [[97]])
        [.puttextline 2 [98], .logBoundary]) := by
  rintro ⟨e, hrun, hcorrect⟩
  obtain ⟨e', hundo, hlines⟩ := hcorrect.undoRedo 1 0 (Nat.zero_le 1) (by decide)
  have hall : (run 10 (Editor.open ⟨1, [[97]]⟩)
      ([.puttextline 2 [98], .logBoundary] ++ [.zundo false])).map (·.file.lines) =
        some [[97], [], []] := by rfl
  have hboth : run 10 (Editor.open ⟨1, [[97]]⟩)
      ([.puttextline 2 [98], .logBoundary] ++ [.zundo false]) = some e' := by
    rw [run_append, hrun]
    exact hundo
  rw [hboth] at hall
  have hgrown : e'.file.lines = [[97], [], []] := Option.some.inj hall
  rw [hgrown] at hlines
  exact absurd hlines (by decide)

end SdkTools.Mep
