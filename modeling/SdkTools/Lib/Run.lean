import Mathlib.Data.List.Basic

/-!
# Finite runs of a labelled step relation

A run is built by appending steps, so an invariant may speak about the whole
history of labels. Nothing here refers to a particular system.
-/

namespace SdkTools.Lib

set_option autoImplicit false

universe u v

variable {σ : Type u} {ε : Type v}

/-- `Run Step s es s'`: the steps labelled `es`, in order, lead from `s` to `s'`. -/
inductive Run (Step : σ → ε → σ → Prop) (s : σ) : List ε → σ → Prop where
  | nil : Run Step s [] s
  | snoc {es : List ε} {e : ε} {t t' : σ} :
      Run Step s es t → Step t e t' → Run Step s (es ++ [e]) t'

namespace Run

variable {Step : σ → ε → σ → Prop} {s t t' : σ} {es es' : List ε}

theorem single {e : ε} (h : Step s e t) : Run Step s [e] t := by
  have hnil : Run Step s [] s := .nil
  exact hnil.snoc h

theorem append (h : Run Step s es t) (h' : Run Step t es' t') : Run Step s (es ++ es') t' := by
  induction h' with
  | nil => simpa using h
  | snoc _ hstep ih => simpa [List.append_assoc] using ih.snoc hstep

/-- An invariant of the state alone. -/
theorem invariant {I : σ → Prop} (h : Run Step s es t) (init : I s)
    (step : ∀ a e b, I a → Step a e b → I b) : I t := by
  induction h with
  | nil => exact init
  | snoc _ hstep ih => exact step _ _ _ ih hstep

/-- An invariant that also reads the history of labels. -/
theorem history {I : List ε → σ → Prop} (h : Run Step s es t) (init : I [] s)
    (step : ∀ hist a e b, I hist a → Step a e b → I (hist ++ [e]) b) : I es t := by
  induction h with
  | nil => exact init
  | snoc _ hstep ih => exact step _ _ _ _ ih hstep

theorem mono {Step' : σ → ε → σ → Prop} (h : Run Step s es t)
    (sub : ∀ a e b, Step a e b → Step' a e b) : Run Step' s es t := by
  induction h with
  | nil => exact .nil
  | snoc _ hstep ih => exact ih.snoc (sub _ _ _ hstep)

end Run

end SdkTools.Lib
