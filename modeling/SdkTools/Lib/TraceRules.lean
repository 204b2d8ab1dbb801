import SdkTools.Lib.Traced

/-!
# Rules for traced computations

What a computation leaves behind is judged event by event, against the events before it.
`Allowed past e` is the law for the event `e`, and `Regular e` is what is assumed of the
events of the run.
-/

namespace SdkTools.Lib

set_option autoImplicit false

namespace Traced

variable {ω ε α β : Type}

/-- Every event of `t`, after the events of `l`, is allowed. -/
def Lawful (Allowed : List ω → ω → Prop) (l t : List ω) : Prop :=
  ∀ before e after, t = before ++ e :: after → Allowed (l ++ before) e

theorem Lawful.nil (Allowed : List ω → ω → Prop) (l : List ω) : Lawful Allowed l [] := by
  intro before e after h
  exact absurd h.symm (List.append_ne_nil_of_right_ne_nil before (List.cons_ne_nil e after))

theorem Lawful.single {Allowed : List ω → ω → Prop} {l : List ω} {e : ω} (h : Allowed l e) :
    Lawful Allowed l [e] := by
  intro before e' after heq
  cases before with
  | nil =>
    obtain ⟨rfl, -⟩ := List.cons.inj heq
    rw [List.append_nil]
    exact h
  | cons e'' before =>
    have htail := (List.cons.inj heq).2
    exact absurd htail.symm (List.append_ne_nil_of_right_ne_nil before (List.cons_ne_nil e' after))

theorem Lawful.append {Allowed : List ω → ω → Prop} {l t t' : List ω}
    (h : Lawful Allowed l t) (h' : Lawful Allowed (l ++ t) t') : Lawful Allowed l (t ++ t') := by
  intro before e after heq
  rcases List.append_eq_append_iff.mp heq with ⟨rest, rfl, ht'⟩ | ⟨rest, ht, hrest⟩
  · rw [← List.append_assoc]
    exact h' rest e after ht'
  · cases rest with
    | nil =>
      rw [List.append_nil] at ht
      subst ht
      have hfirst := h' [] e after (by simpa using hrest.symm)
      rwa [List.append_nil] at hfirst
    | cons e' rest =>
      obtain ⟨rfl, rfl⟩ := List.cons.inj hrest
      exact h before e rest ht

/-- After the events of `l`, the computation leaves allowed events only, stops only with
errors of `Stops`, and what it returns stands to the events up to then as `R` says. -/
def Leaves (Regular : ω → Prop) (Allowed : List ω → ω → Prop) (Stops : ε → Prop) (l : List ω)
    (x : Traced ω ε α) (R : α → List ω → Prop) : Prop :=
  (∀ e ∈ x.trace, Regular e) →
    Lawful Allowed l x.trace ∧ (∀ e, x.result = .error e → Stops e) ∧
      ∀ a, x.Returns a → R a (l ++ x.trace)

variable {Regular : ω → Prop} {Allowed : List ω → ω → Prop} {Stops : ε → Prop} {l : List ω}

theorem Leaves.pure {a : α} {R : α → List ω → Prop} (h : R a l) :
    Leaves Regular Allowed Stops l (Pure.pure a) R := by
  intro _
  refine ⟨Lawful.nil Allowed l, nofun, fun b hb => ?_⟩
  obtain rfl := returns_pure.mp hb
  rw [show (Pure.pure a : Traced ω ε α).trace = [] from rfl, List.append_nil]
  exact h

theorem Leaves.fail {e : ε} {R : α → List ω → Prop} (h : Stops e) :
    Leaves Regular Allowed Stops l (Traced.fail e) R := by
  intro _
  refine ⟨Lawful.nil Allowed l, fun e' he => ?_, fun _ h => absurd h not_returns_fail⟩
  obtain rfl := Except.error.inj he
  exact h

theorem Leaves.emit {e : ω} {R : Unit → List ω → Prop}
    (h : Regular e → Allowed l e ∧ R () (l ++ [e])) :
    Leaves Regular Allowed Stops l (Traced.emit e) R := by
  intro hregular
  obtain ⟨hallowed, hR⟩ := h (hregular e (List.mem_singleton_self e))
  exact ⟨Lawful.single hallowed, nofun, fun _ _ => hR⟩

theorem Leaves.bind {x : Traced ω ε α} {f : α → Traced ω ε β} {R : α → List ω → Prop}
    {R' : β → List ω → Prop} (hx : Leaves Regular Allowed Stops l x R)
    (hf : ∀ a l', R a l' → Leaves Regular Allowed Stops l' (f a) R') :
    Leaves Regular Allowed Stops l (x >>= f) R' := by
  obtain ⟨t, e | a⟩ := x
  · intro hregular
    obtain ⟨hlaw, hstops, -⟩ := hx hregular
    refine ⟨hlaw, fun e' he => ?_, nofun⟩
    obtain rfl := Except.error.inj he
    exact hstops e rfl
  · intro hregular
    rw [bind_ok] at hregular ⊢
    obtain ⟨hlaw, -, hret⟩ := hx fun e he => hregular e (List.mem_append_left _ he)
    obtain ⟨hlaw', hstops, hret'⟩ := hf a _ (hret a rfl) fun e he =>
      hregular e (List.mem_append_right _ he)
    refine ⟨hlaw.append hlaw', hstops, fun b hb => ?_⟩
    rw [← List.append_assoc]
    exact hret' b hb

theorem Leaves.mono {x : Traced ω ε α} {R R' : α → List ω → Prop}
    (hx : Leaves Regular Allowed Stops l x R) (h : ∀ a l', R a l' → R' a l') :
    Leaves Regular Allowed Stops l x R' := by
  intro hregular
  obtain ⟨hlaw, hstops, hret⟩ := hx hregular
  exact ⟨hlaw, hstops, fun a ha => h a _ (hret a ha)⟩

end Traced

end SdkTools.Lib
