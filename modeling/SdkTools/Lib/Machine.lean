import Mathlib.Data.List.Basic

/-!
# Machines with inputs and outputs

A machine answers an input and goes on, or stops with an error. If every step of one
machine can be followed by another, so can every run.
-/

namespace SdkTools.Lib

set_option autoImplicit false

universe u v w

variable {ι : Type u} {ο : Type v} {σ σ₁ σ₂ : Type w} {ε ε₁ ε₂ : Type}

/-- The outputs of a run and the state after it. -/
def runAll (machine : ι → σ → Except ε (ο × σ)) : List ι → σ → Except ε (List ο × σ)
  | [], s => .ok ([], s)
  | i :: is, s =>
    match machine i s with
    | .error e => .error e
    | .ok (o, s') =>
      match runAll machine is s' with
      | .error e => .error e
      | .ok (os, s'') => .ok (o :: os, s'')

/-- `R` relates the states so that `m₂` answers what `m₁` answers, for inputs in `P`. -/
def Follows (m₁ : ι → σ₁ → Except ε₁ (ο × σ₁)) (m₂ : ι → σ₂ → Except ε₂ (ο × σ₂))
    (R : σ₁ → σ₂ → Prop) (P : ι → Prop) : Prop :=
  ∀ i a c o a', P i → R a c → m₁ i a = .ok (o, a') → ∃ c', m₂ i c = .ok (o, c') ∧ R a' c'

theorem Follows.run {m₁ : ι → σ₁ → Except ε₁ (ο × σ₁)} {m₂ : ι → σ₂ → Except ε₂ (ο × σ₂)}
    {R : σ₁ → σ₂ → Prop} {P : ι → Prop} (h : Follows m₁ m₂ R P) {is : List ι}
    (hP : ∀ i ∈ is, P i) {a a' : σ₁} {c : σ₂} {os : List ο} (hR : R a c)
    (hrun : runAll m₁ is a = .ok (os, a')) :
    ∃ c', runAll m₂ is c = .ok (os, c') ∧ R a' c' := by
  induction is generalizing a c os with
  | nil =>
    obtain ⟨rfl, rfl⟩ := Prod.mk.inj (Except.ok.inj hrun)
    exact ⟨c, rfl, hR⟩
  | cons i is ih =>
    obtain ⟨hi, hrest⟩ := List.forall_mem_cons.mp hP
    unfold runAll at hrun
    split at hrun
    · exact nomatch hrun
    · rename_i o a₁ hstep
      split at hrun
      · exact nomatch hrun
      · rename_i os₁ a₂ htail
        obtain ⟨rfl, rfl⟩ := Prod.mk.inj (Except.ok.inj hrun)
        obtain ⟨c₁, hc₁, hR₁⟩ := h i a c o a₁ hi hR hstep
        obtain ⟨c₂, hc₂, hR₂⟩ := ih hrest hR₁ htail
        refine ⟨c₂, ?_, hR₂⟩
        rw [runAll, hc₁]
        dsimp only
        rw [hc₂]

end SdkTools.Lib
