import SdkTools.Lib.History
import SdkTools.Mep.UndoRecords

/-!
# The undo list as a history of documents

The records before the current one lead back through the documents at their
boundaries, the records after it lead forward.
-/

namespace SdkTools.Mep

set_option autoImplicit false

open Lib

/-- `Older size b recs m past`: the records `recs`, from the newest on, lead back
from `m` through the documents `past` at their boundaries; `b` tells whether the
newest one is a boundary. The first change of a group keeps the line count. -/
inductive Older (size : Nat) : Bool → List Rec → List Text → List (List Text) → Prop where
  | tail {m : List Text} (hm : m.length ≤ size) : Older size true [.boundary] m [m]
  | boundary {b : Bool} {recs : List Rec} {m : List Text} {past : List (List Text)}
      (h : Older size b recs m past) : Older size true (.boundary :: recs) m (m :: past)
  | change {b : Bool} {r : Rec} {recs : List Rec} {m m' : List Text} {past : List (List Text)}
      (hr : Logs true r m m') (hm : m'.length ≤ size) (hb : b = true → r.length = m.length)
      (h : Older size b recs m past) : Older size false (r :: recs) m' past

/-- The same towards the head of the list: `b` tells whether the record before
`recs` is a boundary. The list ends with a boundary. -/
inductive Newer (size : Nat) : Bool → List Rec → List Text → List (List Text) → Prop where
  | head {m : List Text} : Newer size true [] m []
  | boundary {b : Bool} {recs : List Rec} {m : List Text} {future : List (List Text)}
      (h : Newer size true recs m future) : Newer size b (.boundary :: recs) m (m :: future)
  | change {b : Bool} {r : Rec} {recs : List Rec} {m m' : List Text} {future : List (List Text)}
      (hr : Logs false r m m') (hm : m'.length ≤ size) (hb : b = true → r.length = m.length)
      (h : Newer size false recs m' future) : Newer size b (r :: recs) m future

variable {size size' : Nat} {b : Bool} {r : Rec} {recs : List Rec} {m : List Text}
  {past future : List (List Text)}

theorem Older.mono (h : Older size b recs m past) (hle : size ≤ size') :
    Older size' b recs m past := by
  induction h with
  | tail hm => exact .tail (Nat.le_trans hm hle)
  | boundary _ ih => exact .boundary ih
  | change hr hm hb _ ih => exact .change hr (Nat.le_trans hm hle) hb ih

theorem Newer.mono (h : Newer size b recs m future) (hle : size ≤ size') :
    Newer size' b recs m future := by
  induction h with
  | head => exact .head
  | boundary _ ih => exact .boundary ih
  | change hr hm hb _ ih => exact .change hr (Nat.le_trans hm hle) hb ih

theorem Older.length_le (h : Older size b recs m past) : m.length ≤ size := by
  induction h with
  | tail hm => exact hm
  | boundary _ ih => exact ih
  | change _ hm _ _ _ => exact hm

theorem Older.past_ne_nil (h : Older size b recs m past) : past ≠ [] := by
  induction h with
  | tail _ => exact List.cons_ne_nil _ _
  | boundary _ _ => exact List.cons_ne_nil _ _
  | change _ _ _ _ ih => exact ih

theorem Older.isBoundary (h : Older size b (r :: recs) m past) : r.isBoundary = b := by
  cases h with
  | tail _ => rfl
  | boundary _ => rfl
  | change hr _ _ _ => exact hr.not_boundary

/-- The current record is the tail exactly at the oldest boundary. -/
theorem Older.eq_nil_iff (h : Older size b (r :: recs) m past) :
    recs = [] ↔ b = true ∧ past.length = 1 := by
  cases h with
  | tail _ => exact ⟨fun _ => ⟨rfl, rfl⟩, fun _ => rfl⟩
  | boundary h =>
    constructor
    · intro hnil
      rw [hnil] at h
      cases h
    · intro hone
      have hpos := List.length_pos_iff.mpr h.past_ne_nil
      have hlen := hone.2
      simp only [List.length_cons] at hlen
      omega
  | change _ _ _ h =>
    constructor
    · intro hnil
      rw [hnil] at h
      cases h
    · intro hone
      cases hone.1

/-- At a boundary the latest document is the present one. -/
theorem Older.past_of_boundary (h : Older size true recs m past) :
    ∃ past', past = m :: past' := by
  cases h with
  | tail _ => exact ⟨[], rfl⟩
  | boundary _ => exact ⟨_, rfl⟩

theorem Newer.countP_boundary (h : Newer size b recs m future) :
    recs.countP Rec.isBoundary = future.length := by
  induction h with
  | head => rfl
  | boundary _ ih =>
    rw [List.countP_cons_of_pos (by rfl), ih]
    rfl
  | change hr _ _ _ ih => simpa [hr.not_boundary] using ih

theorem Newer.future_of_nil (h : Newer size b [] m future) : future = [] := by
  cases h
  rfl

/-- The head of the list is a boundary whenever the current record is not the head. -/
theorem Newer.getLast_boundary (h : Newer size b recs m future) (hne : recs ≠ []) :
    recs.getLast? = some .boundary := by
  induction h with
  | head => exact absurd rfl hne
  | boundary h ih =>
    rename_i recs m future
    cases recs with
    | nil => rfl
    | cons r recs =>
      rw [List.getLast?_cons_cons]
      exact ih (List.cons_ne_nil _ _)
  | change hr hm hb h ih =>
    rename_i recs m m' future
    cases recs with
    | nil => cases h
    | cons r recs =>
      rw [List.getLast?_cons_cons]
      exact ih (List.cons_ne_nil _ _)

theorem freeHeads_eq (recs : List Rec) (c : Int) :
    freeHeads recs c = c - recs.countP Rec.isBoundary := by
  induction recs generalizing c with
  | nil => simp [freeHeads]
  | cons r recs ih =>
    rw [freeHeads, ih, List.countP_cons]
    cases r.isBoundary with
    | false => simp
    | true =>
      simp only [if_true]
      omega

theorem Newer.freeHeads (h : Newer size b recs m future) (c : Int) :
    freeHeads recs.reverse c = c - future.length := by
  rw [freeHeads_eq, List.countP_reverse, h.countP_boundary]

/-- Putting the line of the newest record again: the record already holds the
text before the first of the two puts. -/
theorem Older.replace_again {line length : Nat} {v : Text}
    (h : Older size b (.replace line v length :: recs) m past) (buf : Text) :
    Older size b (.replace line v (putLine m line buf).length :: recs) (putLine m line buf)
      past := by
  have hroom := h.length_le
  cases h with
  | change hr hm hb holder =>
    cases hr with
    | replace hput hv =>
      rename_i m₀ buf₀
      have hlen : (putLine m line buf).length = m.length := by
        rw [hput, length_putLine, length_putLine]
        omega
      have hagain : putLine m line buf = putLine m₀ line buf := by
        apply ext_textAt
        · rw [hlen, hput, length_putLine, length_putLine]
        · intro i
          rw [textAt_putLine, textAt_putLine, hput, textAt_putLine]
          split <;> rfl
      refine .change (.replace hagain hv) (Nat.le_trans (Nat.le_of_eq hlen) hroom) ?_ holder
      intro hb'
      exact hlen.trans (hb hb')

/-! ## Freeing records at the tail -/

theorem freeTails_stop {limit : Nat} {c : Int} (hc : c ≤ limit) (recs : List Rec) :
    freeTails limit recs c = some (recs, c) := by
  cases recs with
  | nil => simp [freeTails, hc]
  | cons r recs =>
    cases recs with
    | nil => simp [freeTails, hc]
    | cons next recs => simp [freeTails, hc]

/-- Freeing goes on up to the next boundary. -/
theorem freeTails_group {limit : Nat} {c : Int} (hc : ¬ c ≤ limit) (first : Rec)
    (mid rest : List Rec) (hmid : ∀ r ∈ mid, r.isBoundary = false) :
    freeTails limit (first :: (mid ++ .boundary :: rest)) c =
      freeTails limit (.boundary :: rest) (c - 1) := by
  induction mid generalizing first with
  | nil =>
    show freeTails limit (first :: .boundary :: rest) c = _
    rw [freeTails, if_neg hc]
    rfl
  | cons r mid ih =>
    show freeTails limit (first :: r :: (mid ++ .boundary :: rest)) c = _
    rw [freeTails, if_neg hc, hmid r (List.mem_cons_self)]
    exact ih r fun r' hr' => hmid r' (List.mem_cons_of_mem r hr')

theorem Older.last_group (h : Older size b recs m past) (hlen : past.length = 1) :
    ∃ mid, recs = mid ++ [.boundary] ∧ ∀ r ∈ mid, r.isBoundary = false := by
  induction h with
  | tail _ => exact ⟨[], rfl, by simp⟩
  | boundary h _ =>
    have hpos := List.length_pos_iff.mpr h.past_ne_nil
    simp only [List.length_cons] at hlen
    omega
  | change hr hm hb h ih =>
    rename_i r recs m m' past
    obtain ⟨mid, hmid, hall⟩ := ih hlen
    refine ⟨r :: mid, by rw [hmid]; rfl, ?_⟩
    intro r' hr'
    rcases List.mem_cons.mp hr' with rfl | hr'
    · exact hr.not_boundary
    · exact hall r' hr'

/-- The oldest group and what remains without it. -/
theorem Older.split_oldest (h : Older size b recs m past) (hlen : 2 ≤ past.length) :
    ∃ pre mid, recs = pre ++ .boundary :: (mid ++ [.boundary]) ∧
      (∀ r ∈ mid, r.isBoundary = false) ∧
      Older size b (pre ++ [.boundary]) m past.dropLast := by
  induction h with
  | tail _ => simp at hlen
  | boundary h ih =>
    rename_i recs m past
    by_cases hone : past.length = 1
    · obtain ⟨mid, hmid, hall⟩ := h.last_group hone
      obtain ⟨p, rfl⟩ := List.length_eq_one_iff.mp hone
      exact ⟨[], mid, by rw [hmid]; rfl, hall, .tail h.length_le⟩
    · have hpos := List.length_pos_iff.mpr h.past_ne_nil
      obtain ⟨pre, mid, hrecs, hall, holder⟩ := ih (by omega)
      refine ⟨.boundary :: pre, mid, by rw [hrecs]; rfl, hall, ?_⟩
      rw [List.dropLast_cons_of_ne_nil h.past_ne_nil]
      exact .boundary holder
  | change hr hm hb h ih =>
    rename_i r recs m m' past
    obtain ⟨pre, mid, hrecs, hall, holder⟩ := ih hlen
    exact ⟨r :: pre, mid, by rw [hrecs]; rfl, hall, .change hr hm hb holder⟩

theorem LogBoundary_open {limit : Nat} {u : UndoList} {recs : List Rec} {c : Int}
    (hcur : u.cur.isBoundary = false)
    (htails : freeTails limit (.boundary :: u.cur :: u.blink).reverse
      (freeHeads u.flink.reverse u.cUndo + 1) = some (recs, c)) :
    LogBoundary limit u = some ⟨.boundary, recs.reverse.tail, [], c⟩ := by
  have hguard : ¬ u.cur.isBoundary = true := by
    rw [hcur]
    exact Bool.false_ne_true
  rw [LogBoundary, if_neg hguard]
  show (freeTails limit (.boundary :: u.cur :: u.blink).reverse _).bind _ = _
  exact htails ▸ rfl

/-! ## The editor and the history -/

/-- What each command means for the history of documents. -/
def historyStep (limit : Nat) (h : History (List Text)) : Op → History (List Text)
  | .puttextline line buf => h.change (putLine h.now line buf)
  | .insLine line n =>
    if line < h.now.length then h.change (insertBlank h.now line n) else h
  | .delLine yStart yEnd =>
    if yStart < h.now.length ∧ (yStart : Int) ≤ yEnd then
      h.change (deleteLines h.now yStart (min (yEnd.toNat + 1) h.now.length - yStart))
    else h
  | .logBoundary => h.boundary limit
  | .zundo false => h.undo limit
  | .zundo true => h.redo

def historyRun (limit : Nat) (h : History (List Text)) (ops : List Op) : History (List Text) :=
  ops.foldl (historyStep limit) h

structure Agrees (limit : Nat) (e : Editor) (h : History (List Text)) : Prop where
  shows : Shows e.file h.now
  exact : e.file.cLines = h.now.length
  older : Older e.file.lSize h.pending.isNone (e.undo.cur :: e.undo.blink) h.now
    (h.latest :: h.older)
  newer : Newer e.file.lSize true e.undo.flink h.now h.future
  opened : h.pending ≠ none → e.undo.flink = []
  count : e.undo.cUndo = h.older.length + h.future.length
  bound : h.older.length + h.future.length ≤ limit

variable {limit : Nat} {e : Editor} {h : History (List Text)}

theorem Agrees.room (hag : Agrees limit e h) : h.now.length ≤ e.file.lSize := hag.older.length_le

/-- Logging a change that has been made to the file. -/
theorem Agrees.linkAtHead (hag : Agrees limit e h) {f : File} {m' : List Text}
    (hr : Logs true r h.now m') (hfirst : h.pending = none → r.length = h.now.length)
    (hs : Shows f m') (hc : f.cLines = m'.length) (hsize : e.file.lSize ≤ f.lSize) :
    Agrees limit ⟨f, LinkAtHead e.undo r⟩ (h.change m') := by
  have hroom := hs.room
  have hbound := hag.bound
  refine ⟨hs, hc, ?_, .head, fun _ => rfl, ?_, ?_⟩
  · have hm' : m'.length ≤ f.lSize := by omega
    refine .change hr hm' ?_ (hag.older.mono hsize)
    intro hnone
    exact hfirst (Option.isNone_iff_eq_none.mp hnone)
  · show freeHeads e.undo.flink.reverse e.undo.cUndo = _
    rw [hag.newer.freeHeads, hag.count]
    simp only [History.change, List.length_nil]
    omega
  · simp only [History.change, List.length_nil]
    omega

/-- `LogReplace` overwrites only a record of the open group. -/
theorem LogReplace_cases (hag : Agrees limit e h) (cLines line : Nat) (vLine : Text) :
    LogReplace e.undo cLines line vLine = LinkAtHead e.undo (.replace line vLine cLines) ∨
    ∃ v length, e.undo.cur = .replace line v length ∧
      LogReplace e.undo cLines line vLine = { e.undo with cur := .replace line v cLines } := by
  by_cases hnil : e.undo.flink = []
  · have hhead : e.undo.head = e.undo.cur := by simp [UndoList.head, hnil]
    unfold LogReplace
    rw [hhead]
    cases hcur : e.undo.cur with
    | replace l v length =>
      by_cases hl : l = line
      · refine Or.inr ⟨v, length, by rw [hl], ?_⟩
        simp only [hl, if_true, UndoList.setHead, hnil]
      · exact Or.inl (if_neg hl)
    | insert l n length => exact Or.inl rfl
    | delete l n vaLines length => exact Or.inl rfl
    | boundary => exact Or.inl rfl
  · have hhead : e.undo.head = .boundary := by
      simp [UndoList.head, hag.newer.getLast_boundary hnil]
    unfold LogReplace
    rw [hhead]
    exact Or.inl rfl

end SdkTools.Mep
