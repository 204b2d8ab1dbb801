import Mathlib.Data.List.Basic

/-!
# Traced computations

A traced computation leaves a list of events behind and ends with a value or with an
error. What follows an error is not done; what follows a value adds its events.
-/

namespace SdkTools.Lib

set_option autoImplicit false

structure Traced (ω ε α : Type) where
  trace : List ω
  result : Except ε α

namespace Traced

variable {ω ε α β : Type}

instance : Monad (Traced ω ε) where
  pure a := ⟨[], .ok a⟩
  bind x f :=
    match x.result with
    | .error e => ⟨x.trace, .error e⟩
    | .ok a => ⟨x.trace ++ (f a).trace, (f a).result⟩

/-- One event. -/
def emit (e : ω) : Traced ω ε Unit := ⟨[e], .ok ()⟩

def fail (e : ε) : Traced ω ε α := ⟨[], .error e⟩

/-- A computation that leaves no events. -/
def lift (r : Except ε α) : Traced ω ε α := ⟨[], r⟩

def Returns (x : Traced ω ε α) (a : α) : Prop := x.result = .ok a

theorem bind_ok (t : List ω) (a : α) (f : α → Traced ω ε β) :
    (⟨t, .ok a⟩ : Traced ω ε α) >>= f = ⟨t ++ (f a).trace, (f a).result⟩ := rfl

theorem bind_error (t : List ω) (e : ε) (f : α → Traced ω ε β) :
    (⟨t, .error e⟩ : Traced ω ε α) >>= f = ⟨t, .error e⟩ := rfl

theorem bind_pure_id (x : Traced ω ε α) : (x >>= fun a => pure (id a)) = x := by
  obtain ⟨t, e | a⟩ := x
  · rfl
  · exact congrArg (fun l => (⟨l, .ok a⟩ : Traced ω ε α)) (List.append_nil t)

theorem bind_bind {γ : Type} (x : Traced ω ε α) (f : α → Traced ω ε β) (g : β → Traced ω ε γ) :
    x >>= f >>= g = x >>= fun a => f a >>= g := by
  obtain ⟨t, e | a⟩ := x
  · rfl
  · rw [bind_ok, bind_ok]
    rcases hf : f a with ⟨t', e | b⟩
    · rfl
    · rw [bind_ok]
      exact congrArg (fun l => (⟨l, (g b).result⟩ : Traced ω ε γ)) (List.append_assoc t t' _)

instance : LawfulMonad (Traced ω ε) :=
  LawfulMonad.mk' (Traced ω ε) bind_pure_id (fun _ _ => rfl) bind_bind

@[simp] theorem fail_bind (e : ε) (f : α → Traced ω ε β) :
    (fail e : Traced ω ε α) >>= f = fail e := rfl

@[simp] theorem returns_pure {a b : α} : (pure a : Traced ω ε α).Returns b ↔ a = b :=
  ⟨fun h => Except.ok.inj h, fun h => congrArg Except.ok h⟩

@[simp] theorem not_returns_fail {e : ε} {a : α} : ¬(fail e : Traced ω ε α).Returns a := nofun

theorem returns_bind {x : Traced ω ε α} {f : α → Traced ω ε β} {b : β} :
    (x >>= f).Returns b ↔ ∃ a, x.Returns a ∧ (f a).Returns b := by
  obtain ⟨t, e | a⟩ := x
  · constructor
    · exact nofun
    · rintro ⟨a, h, -⟩
      exact nomatch h
  · constructor
    · exact fun h => ⟨a, rfl, h⟩
    · rintro ⟨a', h, hf⟩
      obtain rfl := Except.ok.inj h
      exact hf

/-- The value together with the fact that the computation returns it, for recursions
whose next call is on a part of that value. -/
def attach (x : Traced ω ε α) : Traced ω ε {a // x.Returns a} :=
  ⟨x.trace, match h : x.result with
    | .error e => .error e
    | .ok a => .ok ⟨a, h⟩⟩

theorem bind_attached {x : Traced ω ε α} {f : {a // x.Returns a} → Traced ω ε β}
    {g : α → Traced ω ε β} (h : ∀ a ha, f ⟨a, ha⟩ = g a) : x.attach >>= f = x >>= g := by
  obtain ⟨t, e | a⟩ := x
  · rfl
  · rw [bind_ok, ← h a rfl]
    rfl

end Traced

end SdkTools.Lib
