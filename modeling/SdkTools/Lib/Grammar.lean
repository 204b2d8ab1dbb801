import Mathlib.Data.List.Basic

/-!
# Grammars with actions

The right-hand sides of a grammar hold nonterminals, terminals and actions. A leftmost
derivation reads a sequence of tokens and performs its actions in order; an action sees
the token that was read last before it.
-/

namespace SdkTools.Lib

set_option autoImplicit false

inductive Sym (N T A : Type) where
  | nt (n : N)
  | tok (t : T)
  | act (a : A)

section

variable {N T A I E : Type}

/-- `Derivation production kind event last γ is es`: the symbols `γ` derive the tokens `is`,
read after the token `last`, and perform the actions `es` on the way. -/
inductive Derivation (production : N → List (Sym N T A) → Prop) (kind : I → T)
    (event : A → Option I → E) : Option I → List (Sym N T A) → List I → List E → Prop where
  | nil {last : Option I} : Derivation production kind event last [] [] []
  | tok {last : Option I} {γ : List (Sym N T A)} {i : I} {is : List I} {es : List E}
      (h : Derivation production kind event (some i) γ is es) :
      Derivation production kind event last (.tok (kind i) :: γ) (i :: is) es
  | act {last : Option I} {γ : List (Sym N T A)} {a : A} {is : List I} {es : List E}
      (h : Derivation production kind event last γ is es) :
      Derivation production kind event last (.act a :: γ) is (event a last :: es)
  | nt {last : Option I} {γ rhs : List (Sym N T A)} {n : N} {is : List I} {es : List E}
      (hprod : production n rhs) (h : Derivation production kind event last (rhs ++ γ) is es) :
      Derivation production kind event last (.nt n :: γ) is es

/-- A predicate that every step of a derivation hands up holds of every derivation. -/
theorem Derivation.closed {production : N → List (Sym N T A) → Prop} {kind : I → T}
    {event : A → Option I → E} (Shape : List (Sym N T A) → Prop)
    (Good : Option I → List (Sym N T A) → List I → List E → Prop)
    (hnil : ∀ last, Good last [] [] [])
    (htok : ∀ last γ i is es, Shape (.tok (kind i) :: γ) →
      Shape γ ∧ (Good (some i) γ is es → Good last (.tok (kind i) :: γ) (i :: is) es))
    (hact : ∀ last γ a is es, Shape (.act a :: γ) →
      Shape γ ∧ (Good last γ is es → Good last (.act a :: γ) is (event a last :: es)))
    (hnt : ∀ last γ rhs n is es, Shape (.nt n :: γ) → production n rhs →
      Shape (rhs ++ γ) ∧ (Good last (rhs ++ γ) is es → Good last (.nt n :: γ) is es))
    {last : Option I} {γ : List (Sym N T A)} {is : List I} {es : List E}
    (h : Derivation production kind event last γ is es) (hγ : Shape γ) : Good last γ is es := by
  induction h with
  | nil => exact hnil _
  | tok h ih =>
    obtain ⟨hshape, hgood⟩ := htok _ _ _ _ _ hγ
    exact hgood (ih hshape)
  | act h ih =>
    obtain ⟨hshape, hgood⟩ := hact _ _ _ _ _ hγ
    exact hgood (ih hshape)
  | nt hprod h ih =>
    obtain ⟨hshape, hgood⟩ := hnt _ _ _ _ _ _ hγ hprod
    exact hgood (ih hshape)

end

end SdkTools.Lib
