import Mathlib.Data.List.Basic

/-!
# Histories with boundaries, undo and redo

A history remembers the value at each retained boundary, the value changed
since the latest one, and the values that can be redone. Nothing here refers to
a particular editor.
-/

namespace SdkTools.Lib

set_option autoImplicit false

universe u

variable {α : Type u}

structure History (α : Type u) where
  /-- the value, when it was changed after the latest boundary -/
  pending : Option α
  latest : α
  older : List α
  future : List α

namespace History

def now (h : History α) : α := h.pending.getD h.latest

def start (a : α) : History α := ⟨none, a, [], []⟩

/-- A change takes the redoable values away. -/
def change (h : History α) (a : α) : History α := { h with pending := some a, future := [] }

/-- A boundary closes the open group; at most `limit` older boundaries are kept. -/
def boundary (limit : Nat) (h : History α) : History α :=
  match h.pending with
  | none => h
  | some a => ⟨none, a, (h.latest :: h.older).take limit, h.future⟩

/-- One group back from a closed history. -/
def back (h : History α) : History α :=
  match h.older with
  | [] => h
  | a :: older => ⟨none, a, older, h.latest :: h.future⟩

/-- One group forward. -/
def redo (h : History α) : History α :=
  match h.future with
  | [] => h
  | a :: future => ⟨none, a, h.latest :: h.older, future⟩

def undo (limit : Nat) (h : History α) : History α := (h.boundary limit).back

/-- The values at the retained boundaries, the latest first, once the open
group is closed. -/
def boundaries (limit : Nat) (h : History α) : List α :=
  (h.boundary limit).latest :: (h.boundary limit).older

theorem boundary_pending (limit : Nat) (h : History α) : (h.boundary limit).pending = none := by
  unfold boundary
  split
  · assumption
  · rfl

theorem boundary_of_closed (limit : Nat) {h : History α} (hc : h.pending = none) :
    h.boundary limit = h := by
  simp only [boundary, hc]

theorem now_boundary (limit : Nat) (h : History α) : (h.boundary limit).now = h.now := by
  unfold boundary
  split
  · rfl
  · next a ha => simp [now, ha]

theorem now_of_closed {h : History α} (hc : h.pending = none) : h.now = h.latest := by
  simp [now, hc]

theorem back_pending {h : History α} (hc : h.pending = none) : h.back.pending = none := by
  unfold back
  split
  · exact hc
  · rfl

theorem redo_pending {h : History α} (hc : h.pending = none) : h.redo.pending = none := by
  unfold redo
  split
  · exact hc
  · rfl

theorem undo_of_closed {limit : Nat} {h : History α} (hc : h.pending = none) :
    h.undo limit = h.back := by
  rw [undo, boundary_of_closed limit hc]

/-- A step back is taken back by a step forward. -/
theorem redo_back {h : History α} (hc : h.pending = none) (hne : h.older ≠ []) :
    h.back.redo = h := by
  obtain ⟨pending, latest, older, future⟩ := h
  cases older with
  | nil => exact absurd rfl hne
  | cons a older =>
    subst hc
    rfl

/-- `j` steps back. -/
def backN : Nat → History α → History α
  | 0, h => h
  | j + 1, h => backN j h.back

def undoN (limit : Nat) : Nat → History α → History α
  | 0, h => h
  | j + 1, h => undoN limit j (h.undo limit)

def redoN : Nat → History α → History α
  | 0, h => h
  | i + 1, h => redoN i h.redo

theorem backN_pending (j : Nat) {h : History α} (hc : h.pending = none) :
    (backN j h).pending = none := by
  induction j generalizing h with
  | zero => exact hc
  | succ j ih => exact ih (back_pending hc)

theorem backN_succ (j : Nat) (h : History α) : backN (j + 1) h = (backN j h).back := by
  induction j generalizing h with
  | zero => rfl
  | succ j ih => exact ih h.back

theorem undoN_of_closed {limit : Nat} (j : Nat) {h : History α} (hc : h.pending = none) :
    undoN limit j h = backN j h := by
  induction j generalizing h with
  | zero => rfl
  | succ j ih =>
    show undoN limit j (h.undo limit) = backN j h.back
    rw [undo_of_closed hc]
    exact ih (back_pending hc)

/-- The open group counts as the latest one. -/
theorem undoN_succ {limit : Nat} (j : Nat) (h : History α) :
    undoN limit (j + 1) h = backN (j + 1) (h.boundary limit) := by
  show undoN limit j (h.undo limit) = backN j (h.boundary limit).back
  exact undoN_of_closed j (back_pending (boundary_pending limit h))

theorem older_backN (j : Nat) (h : History α) : (backN j h).older = h.older.drop j := by
  induction j generalizing h with
  | zero => rfl
  | succ j ih =>
    show (backN j h.back).older = h.older.drop (j + 1)
    rw [ih h.back]
    cases holder : h.older with
    | nil => simp [back, holder]
    | cons a older => simp [back, holder]

theorem now_backN {j : Nat} {h : History α} (hc : h.pending = none)
    (hj : j ≤ h.older.length) :
    some (backN j h).now = (h.latest :: h.older)[j]? := by
  induction j generalizing h with
  | zero => rw [backN, now_of_closed hc]; rfl
  | succ j ih =>
    show some (backN j h.back).now = (h.latest :: h.older)[j + 1]?
    obtain ⟨pending, latest, older, future⟩ := h
    cases older with
    | nil => simp at hj
    | cons a older =>
      have hj' : j ≤ older.length := by simpa using hj
      exact ih (h := ⟨none, a, older, latest :: future⟩) rfl hj'

theorem redoN_backN {i j : Nat} {h : History α} (hc : h.pending = none) (hij : i ≤ j)
    (hj : j ≤ h.older.length) : redoN i (backN j h) = backN (j - i) h := by
  induction i generalizing j with
  | zero => rfl
  | succ i ih =>
    obtain ⟨k, rfl⟩ : ∃ k, j = k + 1 := ⟨j - 1, by omega⟩
    have hne : (backN k h).older ≠ [] := by
      rw [older_backN]
      intro hnil
      have hlen := congrArg List.length hnil
      simp only [List.length_drop, List.length_nil] at hlen
      omega
    show redoN i (backN (k + 1) h).redo = backN (k + 1 - (i + 1)) h
    rw [backN_succ, redo_back (backN_pending k hc) hne, ih (by omega) (by omega)]
    congr 1
    omega

/-- After `j` undos and then `i` redos the value is the one at the boundary
`j - i` groups before the latest. -/
theorem now_redoN_undoN {limit i j : Nat} {h : History α} (hij : i ≤ j)
    (hj : j ≤ (h.boundary limit).older.length) :
    some (redoN i (undoN limit j h)).now = (h.boundaries limit)[j - i]? := by
  have hc := boundary_pending limit h
  cases j with
  | zero =>
    obtain rfl : i = 0 := by omega
    show some h.now = some (h.boundary limit).latest
    rw [← now_boundary limit h, now_of_closed hc]
  | succ j =>
    rw [undoN_succ, redoN_backN hc hij hj]
    exact now_backN hc (by omega)

end History

end SdkTools.Lib
