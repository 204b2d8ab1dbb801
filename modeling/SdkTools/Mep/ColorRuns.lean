import SdkTools.Lib.Run
import SdkTools.Mep.ColorEdits

/-!
# Runs with colours

What holds between two commands is kept by every edit, by `PutColor` where no record holds the
block, and by undo and redo where each record that is undone keeps the colours.
-/

namespace SdkTools.Mep.Colors

open Lib

set_option autoImplicit false

variable {limit : Nat} {e e₁ e₂ e' : Editor}

/-- Between two commands; there is something to redo only between two groups. -/
structure Inv (e : Editor) : Prop where
  holds : Holds e.file (e.undo.cur :: e.undo.blink) e.undo.flink
  ahead : e.undo.flink ≠ [] → e.undo.cur.isBoundary = true ∧ e.undo.head.isBoundary = true

theorem Rec.eq_boundary {r : Rec} (h : r.isBoundary = true) : r = .boundary := by
  cases r with
  | boundary => rfl
  | replace line vColor length => cases h
  | insert line cLine length => cases h
  | delete line cLine vaColor was length => cases h

theorem Inv.open (cLines : Nat) : Inv (Editor.open cLines) := by
  have hblocks : recBlocks [Rec.boundary] ++ blocks (Editor.open cLines).file.colors = [] :=
    blocks_replicate cLines
  have hblank (b : Nat) (hb : b ∈ blocks (Editor.open cLines).file.colors) : False := by
    rw [List.append_eq_nil_iff.mp hblocks |>.2] at hb
    cases hb
  have hfits : (Editor.open cLines).file.Fits := by
    intro colors hc
    cases hc
  refine ⟨⟨hfits, ⟨cLines, .boundary, trivial⟩, trivial, ?_, fun b hb => ?_, fun r hr => ?_,
    fun _ => ⟨rfl, rfl⟩⟩, fun hne => absurd rfl hne⟩
  · exact hblocks ▸ List.nodup_nil
  · rcases hb with hb | hb | hb
    · cases hb
    · exact absurd hb (hblank b)
    · cases hb
  · rcases hr with hr | hr
    · rw [List.mem_singleton.mp hr]
      trivial
    · cases hr

/-! ## Edits -/

theorem Inv.link {f : File} {r : Rec} {u : UndoList} (h : Holds f (r :: u.cur :: u.blink) []) :
    Inv ⟨f, LinkAtHead u r⟩ :=
  ⟨h, fun hne => absurd rfl hne⟩

theorem Inv.insLine (hinv : Inv e) (line n : Nat) : Inv (InsLine line n e) := by
  unfold InsLine
  rcases Nat.lt_or_ge line e.file.cLines with hline | hline
  · rw [if_neg (Nat.not_le.mpr hline)]
    exact .link (hinv.holds.insert hline n)
  · rw [if_pos hline]
    exact hinv

theorem Inv.delLine (hinv : Inv e) (yStart : Nat) (yEnd : Int) : Inv (DelLine yStart yEnd e) := by
  unfold DelLine
  by_cases hout : OutOfFile e.file yStart yEnd
  · rw [if_pos hout]
    exact hinv
  · have hlines : delLines yStart yEnd e.file =
        removeLines e.file yStart (lastLine e.file yEnd) := if_neg hout
    have hrange : yStart ≤ lastLine e.file yEnd ∧ lastLine e.file yEnd < e.file.cLines := by
      unfold OutOfFile at hout
      unfold lastLine
      omega
    rw [if_neg hout, hlines]
    exact .link (hinv.holds.delete hrange.1 hrange.2 e.undo)

/-- A second replacement of the line at the head changes no record. -/
theorem Inv.logReplace {f : File} {u : UndoList} {line : Nat} {vColor : ColorRec}
    (hinv : Inv ⟨f, u⟩) (hnew : Holds f (.replace line vColor f.cLines :: u.cur :: u.blink) []) :
    Inv ⟨f, LogReplace u f.cLines line vColor⟩ := by
  unfold LogReplace
  split
  · rename_i l c n hhead
    split
    · have hflink : u.flink = [] := by
        by_contra hne
        have hboundary := (hinv.ahead hne).2
        rw [show u.head = _ from hhead] at hboundary
        cases hboundary
      have hcur : u.cur = .replace l c n := by
        unfold UndoList.head at hhead
        rw [hflink] at hhead
        exact hhead
      obtain ⟨m, hspans, -⟩ := hinv.holds.doneFits
      have hn : n = f.cLines := by
        rw [show (Editor.undo ⟨f, u⟩).cur = _ from hcur] at hspans
        cases hspans
        rfl
      have hsame : u.setHead (.replace l c f.cLines) = u := by
        unfold UndoList.setHead
        rw [if_pos hflink, ← hn, ← hcur]
      rw [hsame]
      exact hinv
    · exact .link hnew
  · exact .link hnew

/-- The colour of a line that is replaced is copied. -/
theorem copyColor_spec {f : File} {done undone : List Rec} (h : Holds f done undone)
    {line : Nat} (hline : line < f.cLines) :
    ∃ vColor heap, copyColor f line = some (vColor, heap) ∧
      Holds { f with heap } done undone ∧
      Holds { f with heap } (.replace line vColor f.cLines :: done) [] := by
  have hbare : Holds f (.replace line none f.cLines :: done) [] :=
    h.logBare (.replace hline) rfl trivial
  rcases Option.eq_none_or_eq_some f.vaColor with hv | ⟨colors, hv⟩
  · refine ⟨none, f.heap, ?_, h, hbare⟩
    unfold copyColor
    rw [hv]
  · obtain ⟨color, hcolor⟩ : ∃ color, colors[line]? = some color :=
      ⟨_, List.getElem?_eq_getElem (h.fits colors hv ▸ hline)⟩
    cases color with
    | none =>
      refine ⟨none, f.heap, ?_, h, hbare⟩
      unfold copyColor
      simp only [hv, hcolor]
      rfl
    | some b =>
      have hb : some b ∈ f.colors := by
        unfold File.colors
        rw [hv]
        exact List.mem_of_getElem? hcolor
      obtain ⟨buf, hbuf⟩ :=
        Option.isSome_iff_exists.mp (h.live b (.inr (.inl (mem_blocks.mpr hb))))
      refine ⟨some f.heap.length, f.heap ++ [some buf], ?_, h.malloc buf,
        h.logCopy hline (by rw [hv]; exact Option.some_ne_none _) buf⟩
      unfold copyColor
      simp only [hv, hcolor, hbuf, Option.bind_eq_bind, Option.bind_some, Heap.malloc]
      rfl

theorem Inv.puttextline (hinv : Inv e) {line : Nat} (hline : line < e.file.cLines) :
    ∃ e', puttextline line e = some e' ∧ Inv e' := by
  obtain ⟨vColor, heap, hcopy, hold, hnew⟩ := copyColor_spec hinv.holds hline
  refine ⟨⟨{ e.file with heap }, LogReplace e.undo e.file.cLines line vColor⟩, ?_,
    Inv.logReplace ⟨hold, hinv.ahead⟩ hnew⟩
  unfold Colors.puttextline
  simp only [if_neg (Nat.not_le.mpr hline), hcopy]
  rfl

/-! ## Boundaries -/

theorem freeTails_spec {l recs : List Rec} {c c' : Int}
    (h : freeTails limit l c = some (recs, c')) (hne : l ≠ []) : recs ≠ [] ∧ recs <:+ l := by
  fun_induction freeTails limit l c with
  | case1 => exact absurd rfl hne
  | case2 => exact absurd rfl hne
  | case3 =>
    cases h
    exact ⟨hne, List.suffix_refl _⟩
  | case4 => cases h
  | case5 =>
    cases h
    exact ⟨hne, List.suffix_refl _⟩
  | case6 c r next rest hc ih =>
    obtain ⟨hrecs, hsuffix⟩ := ih h (List.cons_ne_nil _ _)
    exact ⟨hrecs, hsuffix.trans (List.suffix_cons _ _)⟩

theorem Inv.logBoundary (hinv : Inv e) {u : UndoList} (hlog : LogBoundary limit e.undo = some u) :
    Inv { e with undo := u } ∧ u.cur.isBoundary = true ∧ u.flink = e.undo.flink := by
  unfold LogBoundary at hlog
  by_cases hb : e.undo.cur.isBoundary
  · rw [if_pos hb] at hlog
    cases hlog
    exact ⟨hinv, hb, rfl⟩
  · rw [if_neg hb] at hlog
    have hflink : e.undo.flink = [] := by
      by_contra hne
      exact hb (hinv.ahead hne).1
    obtain ⟨⟨recs, c⟩, htails, hu⟩ := Option.bind_eq_some_iff.mp hlog
    cases hu
    have hlinked : Holds e.file (.boundary :: e.undo.cur :: e.undo.blink) [] :=
      hinv.holds.logBare .boundary rfl trivial
    obtain ⟨hne, hsuffix⟩ := freeTails_spec htails (by simp)
    have hprefix := List.reverse_prefix.mpr hsuffix
    rw [List.reverse_reverse] at hprefix
    obtain ⟨first, rest, hrev⟩ := List.exists_cons_of_ne_nil (mt List.reverse_eq_nil_iff.mp hne)
    rw [hrev] at hprefix
    obtain ⟨dead, hdead⟩ := hprefix
    obtain ⟨rfl, hrest⟩ := List.cons.inj hdead
    refine ⟨⟨?_, fun hne => absurd rfl hne⟩, rfl, hflink.symm⟩
    show Holds e.file (.boundary :: recs.reverse.tail) []
    rw [hrev]
    refine @Holds.left e.file (.boundary :: rest) dead [] ?_
    change Holds e.file (.boundary :: (rest ++ dead)) []
    rw [show rest ++ dead = _ from hrest]
    exact hlinked

/-! ## Undo -/

/-- The editor of each round of an undo. -/
inductive Undoing (limit : Nat) (e : Editor) : Editor → Prop
  | start {undo : UndoList} : fundoable false e.undo = true →
      LogBoundary limit e.undo = some undo → Undoing limit e { e with undo }
  | turn {e₁ e₂ : Editor} : Undoing limit e e₁ → UnDoRec e₁ = some e₂ →
      e₂.undo.cur.isBoundary = false → Undoing limit e e₂

/-- Each record that an undo reverses keeps the colours. -/
def UndoesAllowed (limit : Nat) (e : Editor) : Prop :=
  ∀ e₁, Undoing limit e e₁ → UndoAllowed e₁.file e₁.undo.cur

/-- The records that were undone are redone, the nearest first. -/
def redoAll (f : File) (rs : List Rec) : File := rs.foldl (fun f r => redoChange r f) f

theorem UnDoRec_spec (h : Holds e.file (e.undo.cur :: e.undo.blink) e.undo.flink)
    (hallowed : UndoAllowed e.file e.undo.cur) (hun : UnDoRec e = some e') :
    Holds e'.file (e'.undo.cur :: e'.undo.blink) e'.undo.flink ∧
      e'.undo.flink = e.undo.cur :: e.undo.flink ∧ redoChange e.undo.cur e'.file = e.file := by
  obtain ⟨m, hspans, -⟩ := h.doneFits
  obtain ⟨hchange, -, -, -, hredo⟩ := undo_spec h.fits hspans hallowed
  have hback := h.undo hallowed
  unfold UnDoRec at hun
  rw [hchange, Option.bind_eq_bind, Option.bind_some] at hun
  cases hblink : e.undo.blink with
  | nil =>
    rw [hblink] at hun
    cases hun
  | cons prev blink =>
    rw [hblink] at hun hback
    cases hun
    exact ⟨hback, rfl, hredo⟩

theorem undo_loop (hallowed : UndoesAllowed limit e) {k : Nat} (hturn : Undoing limit e e₁)
    (h : Holds e₁.file (e₁.undo.cur :: e₁.undo.blink) e₁.undo.flink)
    (hrun : untilBoundary UnDoRec k e₁ = some e') :
    Holds e'.file (e'.undo.cur :: e'.undo.blink) e'.undo.flink ∧
      e'.undo.cur.isBoundary = true ∧
      ∃ xs, e'.undo.flink = xs ++ e₁.undo.cur :: e₁.undo.flink ∧
        (∀ x ∈ xs, x.isBoundary = false) ∧
        redoChange e₁.undo.cur (redoAll e'.file xs) = e₁.file := by
  induction k generalizing e₁ with
  | zero => cases hrun
  | succ k ih =>
    obtain ⟨e₂, hun, hrun⟩ := Option.bind_eq_some_iff.mp hrun
    obtain ⟨hback, hflink, hredo⟩ := UnDoRec_spec h (hallowed _ hturn) hun
    cases hb : e₂.undo.cur.isBoundary with
    | true =>
      rw [if_pos hb] at hrun
      cases hrun
      refine ⟨hback, hb, [], hflink, ?_, hredo⟩
      intro x hx
      cases hx
    | false =>
      rw [if_neg (by rw [hb]; exact Bool.false_ne_true)] at hrun
      obtain ⟨hend, hboundary, xs, hxs, hplain, hall⟩ := ih (hturn.turn hun hb) hback hrun
      refine ⟨hend, hboundary, xs ++ [e₂.undo.cur], ?_, ?_, ?_⟩
      · rw [hxs, hflink]
        simp
      · intro x hx
        rcases List.mem_append.mp hx with hx | hx
        · exact hplain x hx
        · rw [List.mem_singleton.mp hx]
          exact hb
      · unfold redoAll at hall ⊢
        rw [List.foldl_append]
        show redoChange _ (redoChange e₂.undo.cur _) = _
        rw [hall]
        exact hredo

theorem zundo_undo (h : fundoable false e.undo = true) :
    zundo limit false e = (LogBoundary limit e.undo).bind fun undo =>
      untilBoundary UnDoRec undo.blink.length { e with undo } := by
  unfold zundo
  rw [h]
  rfl

theorem zundo_redo (h : fundoable true e.undo = true) :
    zundo limit true e = (LogBoundary limit e.undo).bind fun undo =>
      untilBoundary ReDoRec undo.flink.length { e with undo } := by
  unfold zundo
  rw [h]
  rfl

theorem zundo_not {fMeta : Bool} (h : fundoable fMeta e.undo = false) :
    zundo limit fMeta e = some e := by
  unfold zundo
  rw [h]
  rfl

theorem head_append (u : UndoList) {xs rest : List Rec} (h : u.flink = xs ++ rest)
    (hne : rest ≠ []) : some u.head = rest.getLast? := by
  obtain ⟨last, hlast⟩ : ∃ last, rest.getLast? = some last :=
    ⟨_, List.getLast?_eq_some_getLast hne⟩
  unfold UndoList.head
  rw [h, List.getLast?_append, hlast]
  rfl

/-- An undo goes to the boundary before, from where a redo leads back. -/
theorem Inv.undo (hinv : Inv e) (hallowed : UndoesAllowed limit e)
    (hrun : zundo limit false e = some e') :
    Inv e' ∧ (fundoable false e.undo = true → ∃ xs rest, e'.undo.flink = xs ++ .boundary :: rest ∧
      e'.undo.cur = .boundary ∧ (∀ x ∈ xs, x.isBoundary = false) ∧
      redoAll e'.file xs = e.file) := by
  cases hable : fundoable false e.undo with
  | false =>
    rw [zundo_not hable] at hrun
    cases hrun
    exact ⟨hinv, fun h => by cases h⟩
  | true =>
    rw [zundo_undo hable] at hrun
    obtain ⟨u, hlog, hrun⟩ := Option.bind_eq_some_iff.mp hrun
    obtain ⟨hinv', hcur, hflink⟩ := hinv.logBoundary hlog
    obtain ⟨hend, hboundary, xs, hxs, hplain, hall⟩ :=
      undo_loop hallowed (.start hable hlog) hinv'.holds hrun
    have hcur' : u.cur = .boundary := Rec.eq_boundary hcur
    rw [show (Editor.undo { e with undo := u }).cur = .boundary from hcur'] at hxs hall
    refine ⟨⟨hend, fun _ => ⟨hboundary, ?_⟩⟩, fun _ =>
      ⟨xs, u.flink, hxs, Rec.eq_boundary hboundary, hplain, hall⟩⟩
    have hhead := head_append e'.undo hxs (List.cons_ne_nil _ _)
    change some e'.undo.head = (Rec.boundary :: u.flink).getLast? at hhead
    cases hrest : u.flink with
    | nil =>
      rw [hrest] at hhead
      rw [Option.some.inj hhead]
      rfl
    | cons r rest =>
      have hne : u.flink ≠ [] := by
        rw [hrest]
        exact List.cons_ne_nil _ _
      have hlast := head_append u (show u.flink = [] ++ u.flink from rfl) hne
      rw [hrest, List.getLast?_cons_cons, ← hrest, ← hlast] at hhead
      rw [Option.some.inj hhead]
      exact (hinv'.ahead hne).2

/-! ## Redo -/

theorem redo_loop {k : Nat} (h : Holds e.file e.undo.blink (e.undo.cur :: e.undo.flink))
    (hrun : untilBoundary ReDoRec k e = some e') :
    Holds e'.file e'.undo.blink (e'.undo.cur :: e'.undo.flink) ∧
      e'.undo.cur.isBoundary = true ∧ e'.undo.flink <:+ e.undo.flink := by
  induction k generalizing e with
  | zero => cases hrun
  | succ k ih =>
    obtain ⟨e₂, hredo, hrun⟩ := Option.bind_eq_some_iff.mp hrun
    obtain ⟨⟨n, hspans⟩, -, -⟩ := h.undoneFits
    have hnext := h.redo
    rw [← (redo_spec h.fits hspans).1] at hnext
    unfold ReDoRec at hredo
    cases hflink : e.undo.flink with
    | nil =>
      rw [hflink] at hredo
      cases hredo
    | cons next flink =>
      rw [hflink] at hredo hnext
      cases hredo
      cases hb : next.isBoundary with
      | true =>
        rw [if_pos hb] at hrun
        cases hrun
        exact ⟨hnext, hb, List.suffix_cons _ _⟩
      | false =>
        rw [if_neg (by rw [hb]; exact Bool.false_ne_true)] at hrun
        obtain ⟨hend, hboundary, hsuffix⟩ := ih hnext hrun
        exact ⟨hend, hboundary, hsuffix.trans (List.suffix_cons _ _)⟩

theorem Inv.redo (hinv : Inv e) (hrun : zundo limit true e = some e') : Inv e' := by
  cases hable : fundoable true e.undo with
  | false =>
    rw [zundo_not hable] at hrun
    cases hrun
    exact hinv
  | true =>
    rw [zundo_redo hable] at hrun
    obtain ⟨u, hlog, hrun⟩ := Option.bind_eq_some_iff.mp hrun
    obtain ⟨hinv', hcur, hflink⟩ := hinv.logBoundary hlog
    have hcur' : u.cur = .boundary := Rec.eq_boundary hcur
    have hstart : Holds e.file u.blink (u.cur :: u.flink) := by
      have hholds := hinv'.holds
      change Holds e.file (u.cur :: u.blink) u.flink at hholds
      rw [hcur'] at hholds ⊢
      exact hholds.undo trivial
    obtain ⟨hend, hboundary, hsuffix⟩ := redo_loop hstart hrun
    have hholds := hend.redo
    rw [Rec.eq_boundary hboundary] at hholds
    refine ⟨by rw [Rec.eq_boundary hboundary]; exact hholds, fun hne => ⟨hboundary, ?_⟩⟩
    obtain ⟨redone, hredone⟩ := hsuffix
    have hhead := head_append u hredone.symm hne
    have hhead' := head_append e'.undo (show e'.undo.flink = [] ++ e'.undo.flink from rfl) hne
    rw [← hhead] at hhead'
    rw [Option.some.inj hhead']
    refine (hinv'.ahead ?_).2
    show u.flink ≠ []
    rw [← hredone]
    exact List.append_ne_nil_of_right_ne_nil _ hne

/-- A redo goes through the records up to the next boundary. -/
theorem untilBoundary_redo {xs rest : List Rec} (hplain : ∀ x ∈ xs, x.isBoundary = false)
    {k : Nat} (hk : xs.length < k) (f : File) (u : UndoList)
    (hflink : u.flink = xs ++ .boundary :: rest) :
    ∃ e', untilBoundary ReDoRec k ⟨f, u⟩ = some e' ∧ e'.file = redoAll f (u.cur :: xs) := by
  induction xs generalizing k f u with
  | nil =>
    obtain ⟨k, rfl⟩ : ∃ j, k = j + 1 := ⟨k - 1, by omega⟩
    refine ⟨⟨redoChange u.cur f, { u with
      cur := .boundary
      blink := u.cur :: u.blink
      flink := rest }⟩, ?_, rfl⟩
    rw [untilBoundary, ReDoRec]
    simp only [hflink, List.nil_append]
    rfl
  | cons x xs ih =>
    obtain ⟨hx, hplain⟩ := List.forall_mem_cons.mp hplain
    obtain ⟨k, rfl⟩ : ∃ j, k = j + 1 := ⟨k - 1, by omega⟩
    obtain ⟨e', hrun, hfile⟩ := ih hplain (Nat.lt_of_succ_lt_succ hk) (redoChange u.cur f)
      { u with cur := x, blink := u.cur :: u.blink, flink := xs ++ .boundary :: rest } rfl
    refine ⟨e', ?_, hfile⟩
    rw [untilBoundary, ReDoRec]
    simp only [hflink, List.cons_append, Option.bind_eq_bind, Option.bind_some, hx]
    exact hrun

/-! ## Runs -/

theorem Undoing.holds (hinv : Inv e) (hallowed : UndoesAllowed limit e)
    (h : Undoing limit e e₁) :
    Holds e₁.file (e₁.undo.cur :: e₁.undo.blink) e₁.undo.flink := by
  induction h with
  | start hable hlog => exact (hinv.logBoundary hlog).1.holds
  | turn hturn hun hplain ih => exact (UnDoRec_spec ih (hallowed _ hturn) hun).1

/-- The lines of an undone deletion have the colours that they had when they were deleted. -/
theorem restored_attrs {f : File} {line n length : Nat} {vaColor : Option (List ColorRec)}
    {was : List (Option Attrs)} {done undone : List Rec}
    (h : Holds f (.delete line n vaColor was length :: done) undone) :
    (((before f (.delete line n vaColor was length)).colors.drop line).take n).map
      (before f (.delete line n vaColor was length)).attrs = was := by
  obtain ⟨m, hspans, -⟩ := h.doneFits
  have hwas := h.was _ (.inl List.mem_cons_self)
  have hbare : f.vaColor = none → (Rec.delete line n vaColor was length).blocks = [] := fun hv =>
    (List.append_eq_nil_iff.mp (h.bare hv).1).1
  have hfit : line ≤ f.cLines ∧ length = m := by
    generalize hk : f.cLines = k at hspans
    cases hspans with
    | delete hpos hm hline hsaved => exact ⟨hline, rfl⟩
  obtain ⟨hline, rfl⟩ := hfit
  have hlength := restored_length hspans
  have hcolors := File.colors_with hline fun hv => eq_replicate_of_blocks (hbare hv)
  obtain ⟨-, hdrop, -⟩ := @take_append_drop_append f.colors
    (Rec.restored (.delete line n vaColor was length)) line (by rw [h.fits.length]; exact hline)
  show (((f.with line _).colors.drop line).take n).map _ = was
  rw [hcolors, hdrop, List.take_left' hlength]
  exact hwas

/-- When a command keeps the colours: a replaced line exists, no record holds the block that is
freed, and each record that is undone keeps the colours. -/
def Allowed (limit : Nat) (e : Editor) : Op → Prop
  | .puttextline line => line < e.file.cLines
  | .putColor line _ => line < e.file.cLines → ∀ b, e.file.colors[line]? = some (some b) →
      b ∉ recBlocks (e.undo.cur :: e.undo.blink) ∧ b ∉ recBlocks e.undo.flink
  | .zundo false => UndoesAllowed limit e
  | _ => True

def AllowedStep (limit : Nat) (e : Editor) (op : Op) (e' : Editor) : Prop :=
  Allowed limit e op ∧ step limit e op = some e'

theorem Inv.step {op : Op} (hinv : Inv e) (h : AllowedStep limit e op e') : Inv e' := by
  obtain ⟨hallowed, hstep⟩ := h
  cases op with
  | puttextline line =>
    obtain ⟨e₂, hput, hinv₂⟩ := hinv.puttextline hallowed
    cases hput.symm.trans hstep
    exact hinv₂
  | putColor line buf =>
    obtain ⟨g, hput, hholds⟩ := hinv.holds.putcolorline hallowed buf
    obtain ⟨g', hput', rfl⟩ := Option.map_eq_some_iff.mp hstep
    cases hput.symm.trans hput'
    exact ⟨hholds, hinv.ahead⟩
  | insLine line n =>
    cases hstep
    exact hinv.insLine line n
  | delLine yStart yEnd =>
    cases hstep
    exact hinv.delLine yStart yEnd
  | logBoundary =>
    obtain ⟨u, hlog, rfl⟩ := Option.map_eq_some_iff.mp hstep
    exact (hinv.logBoundary hlog).1
  | zundo fMeta =>
    cases fMeta with
    | false => exact (hinv.undo hallowed hstep).1
    | true => exact hinv.redo hstep

/-- The colours follow the lines. -/
structure ColorsFollow (limit : Nat) (e : Editor) : Prop where
  /-- no block of a line or of a record was freed -/
  live : ∀ b, b ∈ blocks e.file.colors ∨ b ∈ recBlocks (e.undo.cur :: e.undo.blink) ∨
    b ∈ recBlocks e.undo.flink → (e.file.heap.contents b).isSome
  puts : ∀ op, Allowed limit e op → (∃ line, op = .puttextline line) ∨
    (∃ line buf, op = .putColor line buf) → ∃ e', step limit e op = some e'
  /-- nothing is copied from a record without colours, and the lines of a deletion come back
  with the colours that they had -/
  restores : UndoesAllowed limit e → ∀ e₁, Undoing limit e e₁ →
    ∃ f, undoChange e₁.undo.cur e₁.file = some f ∧ ∀ line n vaColor was length,
      e₁.undo.cur = .delete line n vaColor was length →
        ((f.colors.drop line).take n).map f.attrs = was
  undoRedo : UndoesAllowed limit e → fundoable false e.undo = true →
    ∀ e', zundo limit false e = some e' → ∃ e'', zundo limit true e' = some e'' ∧
      e''.file = e.file

theorem Inv.undoRedo (hinv : Inv e) (hallowed : UndoesAllowed limit e)
    (hable : fundoable false e.undo = true) (hrun : zundo limit false e = some e') :
    ∃ e'', zundo limit true e' = some e'' ∧ e''.file = e.file := by
  obtain ⟨-, hback⟩ := hinv.undo hallowed hrun
  obtain ⟨xs, rest, hflink, hcur, hplain, hall⟩ := hback hable
  have hable' : fundoable true e'.undo = true := by
    unfold fundoable
    rw [hflink]
    cases xs <;> rfl
  have hlog : LogBoundary limit e'.undo = some e'.undo := by
    unfold LogBoundary
    rw [hcur]
    rfl
  have hlong : xs.length < e'.undo.flink.length := by
    rw [hflink, List.length_append, List.length_cons]
    omega
  obtain ⟨e'', hredo, hfile⟩ := untilBoundary_redo hplain hlong e'.file e'.undo hflink
  refine ⟨e'', ?_, ?_⟩
  · rw [zundo_redo hable', hlog, Option.bind_some]
    exact hredo
  · rw [hfile, hcur]
    exact hall

theorem Inv.colorsFollow (hinv : Inv e) : ColorsFollow limit e := by
  refine ⟨fun b hb => hinv.holds.live b ?_, ?_, fun hallowed e₁ hturn => ?_,
    fun hallowed hable e' hrun => hinv.undoRedo hallowed hable hrun⟩
  · rcases hb with hb | hb | hb
    · exact .inr (.inl hb)
    · exact .inl hb
    · exact .inr (.inr hb)
  · rintro op hallowed (⟨line, rfl⟩ | ⟨line, buf, rfl⟩)
    · obtain ⟨e', hput, -⟩ := hinv.puttextline hallowed
      exact ⟨e', hput⟩
    · obtain ⟨g, hput, -⟩ := hinv.holds.putcolorline hallowed buf
      exact ⟨{ e with file := g }, Option.map_eq_some_iff.mpr ⟨g, hput, rfl⟩⟩
  · have hholds := hturn.holds hinv hallowed
    obtain ⟨m, hspans, -⟩ := hholds.doneFits
    refine ⟨_, (undo_spec hholds.fits hspans (hallowed _ hturn)).1, ?_⟩
    intro line n vaColor was length hcur
    rw [hcur] at hholds ⊢
    exact restored_attrs hholds

/-- In a run of allowed commands the colours follow the lines. -/
theorem colors_follow {cLines : Nat} {ops : List Op}
    (hrun : Run (AllowedStep limit) (Editor.open cLines) ops e) : ColorsFollow limit e := by
  have hinv : Inv e := hrun.invariant (Inv.open cLines) fun _ _ _ hinv h => hinv.step h
  exact hinv.colorsFollow

/-- A coloured line is deleted from a file of two. -/
theorem colors_follow_deleted :
    ∃ e, [Op.putColor 0 [7], .puttextline 1, .delLine 0 0].foldlM (step 10) (Editor.open 2) =
      some e ∧ ColorsFollow 10 e := by
  let colored : File := ⟨2, some [some 0, none], [some [7]]⟩
  let edited : Editor := ⟨colored, LinkAtHead CreateUndoList (.replace 1 none 2)⟩
  have hcolor : AllowedStep 10 (Editor.open 2) (.putColor 0 [7]) ⟨colored, CreateUndoList⟩ := by
    refine ⟨fun _ b hb => ?_, rfl⟩
    cases hb
  have hput : AllowedStep 10 ⟨colored, CreateUndoList⟩ (.puttextline 1) edited :=
    ⟨Nat.lt_succ_self 1, rfl⟩
  have hdelete : AllowedStep 10 edited (.delLine 0 0) (DelLine 0 0 edited) := ⟨trivial, rfl⟩
  exact ⟨_, rfl, colors_follow (((Run.nil.snoc hcolor).snoc hput).snoc hdelete)⟩

/-- Undoing a replacement leaves the colour of the line nowhere. -/
theorem undo_redo_other_color :
    ([Op.putColor 0 [1], .puttextline 0, .putColor 0 [2]].foldlM (step 10) (Editor.open 1)).map
        (fun e => e.file.colors.map e.file.attrs) = some [some [2]] ∧
      ([Op.putColor 0 [1], .puttextline 0, .putColor 0 [2], .zundo false, .zundo true].foldlM
        (step 10) (Editor.open 1)).map (fun e => e.file.colors.map e.file.attrs) =
          some [some [1]] :=
  ⟨rfl, rfl⟩

end SdkTools.Mep.Colors
