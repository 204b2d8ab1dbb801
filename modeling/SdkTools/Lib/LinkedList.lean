import Mathlib.Data.List.Nodup
import Mathlib.Logic.Function.Basic

/-!
# Singly linked lists

Cells that are linked by a partial function, read as the list of the cells from a pointer on. A
cell is put in front and one is unlinked; nothing here refers to what the cells hold.
-/

namespace SdkTools.Lib

set_option autoImplicit false

universe u

variable {α : Type u} {next next' : α → Option α} {p : Option α} {x d : α}
  {xs before after : List α}

/-- The cells from a pointer on. -/
def IsList (next : α → Option α) : Option α → List α → Prop
  | p, [] => p = none
  | p, x :: xs => p = some x ∧ IsList next (next x) xs

theorem IsList.congr (h : IsList next p xs) (hsame : ∀ x ∈ xs, next' x = next x) :
    IsList next' p xs := by
  induction xs generalizing p with
  | nil => exact h
  | cons x xs ih =>
    refine ⟨h.1, ?_⟩
    rw [hsame x List.mem_cons_self]
    exact ih h.2 fun y hy => hsame y (List.mem_cons_of_mem x hy)

theorem IsList.push (h : IsList next p xs) (hx : next x = p) : IsList next (some x) (x :: xs) := by
  refine ⟨rfl, ?_⟩
  rw [hx]
  exact h

theorem IsList.eq_nil_iff (h : IsList next p xs) : xs = [] ↔ p = none := by
  cases xs with
  | nil => exact iff_of_true rfl h
  | cons x xs =>
    rw [h.1]
    exact iff_of_false (List.cons_ne_nil x xs) (Option.some_ne_none x)

variable [DecidableEq α]

theorem IsList.update (h : IsList next p xs) (hd : d ∉ xs) (q : Option α) :
    IsList (Function.update next d q) p xs := by
  apply h.congr
  intro x hx
  exact Function.update_of_ne (ne_of_mem_of_not_mem hx hd) q next

/-- The cell before another one is linked to the one behind it. -/
theorem IsList.unlink (h : IsList next p (before ++ d :: x :: after))
    (hnodup : (before ++ d :: x :: after).Nodup) :
    IsList (Function.update next d (next x)) p (before ++ d :: after) := by
  induction before generalizing p with
  | nil =>
    obtain ⟨hd, -⟩ := List.nodup_cons.mp hnodup
    refine ⟨h.1, ?_⟩
    rw [Function.update_self]
    exact h.2.2.update (fun hmem => hd (List.mem_cons_of_mem x hmem)) _
  | cons a before ih =>
    obtain ⟨ha, hnodup⟩ := List.nodup_cons.mp hnodup
    have hne : a ≠ d := fun heq => ha (by simp [heq])
    refine ⟨h.1, ?_⟩
    rw [Function.update_of_ne hne]
    exact ih h.2 hnodup

end SdkTools.Lib
