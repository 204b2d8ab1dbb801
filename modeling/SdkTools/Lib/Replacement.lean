import Mathlib.Data.List.Basic

/-!
# Replacing the occurrences of a list in a list

Occurrences are replaced from the left, each one after the end of the one before. The
rules `hit`, `miss` and `short` are those of a scan from left to right.
-/

namespace SdkTools.Lib

set_option autoImplicit false

universe u

variable {α : Type u}

/-- The list `pat` occurs after `x` in `x ++ pat ++ y`, and nowhere before. -/
def FirstAfter (pat x y : List α) : Prop :=
  ∀ x' y', x ++ pat ++ y = x' ++ pat ++ y' → x.length ≤ x'.length

inductive Replaced (pat rep : List α) : List α → List α → Prop where
  | none {s : List α} (h : ¬ pat <:+: s) : Replaced pat rep s s
  | first {x y t : List α} (h : FirstAfter pat x y) (ht : Replaced pat rep y t) :
      Replaced pat rep (x ++ pat ++ y) (x ++ rep ++ t)

namespace Replaced

variable {pat rep s t t' : List α} {c : α}

theorem short (h : s.length < pat.length) : Replaced pat rep s s := by
  apply Replaced.none
  intro hin
  have := hin.length_le
  omega

theorem hit (h : Replaced pat rep s t) : Replaced pat rep (pat ++ s) (rep ++ t) := by
  have hfirst : FirstAfter pat [] s := by
    intro x' y' _
    exact Nat.zero_le _
  exact Replaced.first hfirst h

theorem miss (hc : ¬ pat <+: c :: s) (h : Replaced pat rep s t) :
    Replaced pat rep (c :: s) (c :: t) := by
  cases h with
  | none hno =>
    apply Replaced.none
    intro hin
    rcases List.infix_cons_iff.mp hin with hpre | hin
    · exact hc hpre
    · exact hno hin
  | @first x y t hfirst ht =>
    have hfirst' : FirstAfter pat (c :: x) y := by
      intro x' y' heq
      cases x' with
      | nil =>
        apply absurd _ hc
        exact ⟨y', heq.symm⟩
      | cons d x' =>
        obtain ⟨-, heq⟩ := List.cons.inj heq
        have := hfirst x' y' heq
        simp only [List.length_cons]
        omega
    exact Replaced.first hfirst' ht

/-- What the replacement gives is determined. -/
theorem unique (h : Replaced pat rep s t) (h' : Replaced pat rep s t') : t = t' := by
  induction h generalizing t' with
  | none hno =>
    cases h' with
    | none _ => rfl
    | first _ _ => exact absurd ⟨_, _, rfl⟩ hno
  | @first x y t hfirst _ ih =>
    generalize hs : x ++ pat ++ y = s at h'
    cases h' with
    | none hno => exact absurd ⟨x, y, hs⟩ hno
    | @first x' y' w hfirst' ht' =>
      have hlen : x.length = x'.length :=
        Nat.le_antisymm (hfirst x' y' hs) (hfirst' x y hs.symm)
      rw [List.append_assoc, List.append_assoc] at hs
      obtain ⟨rfl, htail⟩ := List.append_inj hs hlen
      obtain rfl := List.append_cancel_left htail
      rw [ih ht']

end Replaced

end SdkTools.Lib
