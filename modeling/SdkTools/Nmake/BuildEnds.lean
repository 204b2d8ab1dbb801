import SdkTools.Nmake.BuildRuns
import Mathlib.Data.Finset.Card

/-!
# Cycles

A target that is being built is not built again, so that the recursion of `build` is no
deeper than there are targets, and every build ends.
-/

namespace SdkTools.Nmake.Building

open Lib Function

set_option autoImplicit false

variable {τ β ρ ω : Type} [DecidableEq τ] [DecidableEq β] {mk : Makefile τ β ρ ω}

/-- The dependents of the targets `names` are among them. -/
structure Makefile.Closed (mk : Makefile τ β ρ ω) (names : Finset τ) : Prop where
  deps : ∀ w, ∀ target ∈ names, ∀ block ∈ mk.buildList target,
    ∀ dep ∈ mk.createDepList w block target, dep.1 ∈ names
  rule : ∀ w, ∀ target ∈ names, ∀ rule name time,
    mk.findRule w target = some (rule, name, time) → name ∈ names

/-- The computation does not run out of fuel. -/
def Ends {α : Type} (x : Trace τ β ρ α) (R : α → Prop) : Prop :=
  ∀ l, Traced.Leaves (fun _ => True) (fun _ _ => True) (· ≠ Stop.fuel) l x (fun a _ => R a)

omit [DecidableEq τ] [DecidableEq β] in
theorem Ends.bind {α α' : Type} {x : Trace τ β ρ α} {f : α → Trace τ β ρ α'} {R : α → Prop}
    {R' : α' → Prop} (hx : Ends x R) (hf : ∀ a, R a → Ends (f a) R') : Ends (x >>= f) R' :=
  fun l => Traced.Leaves.bind (hx l) fun a l' ha => hf a ha l'

omit [DecidableEq τ] [DecidableEq β] in
theorem Ends.pure {α : Type} {a : α} {R : α → Prop} (h : R a) :
    Ends (Pure.pure a : Trace τ β ρ α) R :=
  fun _ => Traced.Leaves.pure h

omit [DecidableEq τ] [DecidableEq β] in
theorem Ends.fail {α : Type} {e : Stop} {R : α → Prop} (h : e ≠ .fuel) :
    Ends (Traced.fail e : Trace τ β ρ α) R :=
  fun _ => Traced.Leaves.fail h

omit [DecidableEq τ] [DecidableEq β] in
theorem Ends.emit (e : Event τ β ρ) : Ends (Traced.emit e) fun _ => True :=
  fun _ => Traced.Leaves.emit fun _ => ⟨trivial, trivial⟩

/-- The builds of `names` end when the targets `b` are being built. -/
def EndsWith (names : Finset τ) (b : τ → Bool) (rec : Builder τ β ρ ω) : Prop :=
  ∀ object ∈ names, ∀ flags time s, s.building = b →
    Ends (rec object flags time s) fun r => r.2.2.building = b

variable {names : Finset τ} {b : τ → Bool} {rec : Builder τ β ρ ω} {object : τ}
  {s : State τ β ω} {loc : Locals τ β}

omit [DecidableEq τ] [DecidableEq β] in
theorem carryOut_ends (commands : β ⊕ ρ) (hs : s.building = b) :
    Ends (carryOut mk commands object s) fun r => r.2.building = b := by
  unfold carryOut
  dsimp only
  split
  · exact Ends.fail fun h => by cases h
  · exact Ends.pure hs

omit [DecidableEq β] in
theorem buildDeps_ends (hrec : EndsWith names b rec) (flags double : Bool)
    (deps : List (τ × Nat)) (hdeps : ∀ dep ∈ deps, dep.1 ∈ names) (loc : Locals τ β)
    (hs : s.building = b) :
    Ends (buildDeps mk rec object flags double deps loc s) fun r => r.2.building = b := by
  induction deps generalizing loc s with
  | nil => exact Ends.pure hs
  | cons dep deps ih =>
    obtain ⟨name, depTime⟩ := dep
    have hname := hdeps (name, depTime) List.mem_cons_self
    refine Ends.bind (hrec name hname flags depTime s hs) ?_
    rintro ⟨rc, tempTime, s'⟩ hs'
    refine ih (fun dep hdep => hdeps dep (List.mem_cons_of_mem _ hdep)) _ ?_
    exact ((noteTime_kept object _ _ _).1.trans (noteFailure_kept mk object _ rc).1).trans hs'

omit [DecidableEq τ] in
theorem doDoubleColon_ends (force : Bool) (block : β) (hs : s.building = b) :
    Ends (doDoubleColon mk object force block loc s) fun r => r.2.building = b := by
  unfold doDoubleColon
  split
  · exact Ends.pure hs
  dsimp only
  refine Ends.bind (Ends.emit _) fun _ _ => ?_
  split
  · refine Ends.bind (carryOut_ends _ hs) ?_
    rintro ⟨rc, s'⟩ hs'
    exact Ends.pure hs'
  · exact Ends.pure hs

theorem buildBlocks_ends (hclosed : mk.Closed names) (hrec : EndsWith names b rec)
    (hobject : object ∈ names) (force : Bool) (blocks : List β)
    (hblocks : ∀ block ∈ blocks, block ∈ mk.buildList object) (loc : Locals τ β)
    (hs : s.building = b) :
    Ends (buildBlocks mk rec object force blocks loc s) fun r => r.2.1.building = b := by
  induction blocks generalizing loc s with
  | nil => exact Ends.pure hs
  | cons block blocks ih =>
    have hrest : ∀ block' ∈ blocks, block' ∈ mk.buildList object :=
      fun block' h => hblocks block' (List.mem_cons_of_mem _ h)
    have hdeps := hclosed.deps s.world object hobject block (hblocks block List.mem_cons_self)
    unfold buildBlocks
    split
    · exact ih hrest _ hs
    dsimp only
    refine Ends.bind (Ends.emit _) fun _ _ => ?_
    refine Ends.bind (buildDeps_ends hrec _ _ _ hdeps _ hs) ?_
    rintro ⟨loc₁, s₁⟩ hs₁
    dsimp only
    split
    · refine Ends.bind (doDoubleColon_ends force block hs₁) ?_
      rintro ⟨loc₂, s₂⟩ hs₂
      dsimp only
      split
      · exact Ends.pure hs₂
      · exact ih hrest _ hs₂
    · split
      · exact Ends.fail fun h => by cases h
      · exact ih hrest _ hs₁

omit [DecidableEq τ] [DecidableEq β] in
theorem useRule_ends (hclosed : mk.Closed names) (hrec : EndsWith names b rec)
    (hobject : object ∈ names) (force : Bool) (targTime : Nat) (hs : s.building = b) :
    Ends (useRule mk rec object force targTime loc s) fun r => r.2.2.building = b := by
  unfold useRule
  split
  · exact Ends.pure hs
  case h_2 rule name time hrule =>
    refine Ends.bind (Ends.emit _) fun _ _ => ?_
    have hname := hclosed.rule s.world object hobject rule name time hrule
    refine Ends.bind (hrec name hname force time s hs) ?_
    rintro ⟨rc, tempTime, s'⟩ hs'
    exact Ends.pure hs'

omit [DecidableEq τ] in
theorem doSingleColon_ends (force : Bool) (targTime : Nat) (commands : Option (β ⊕ ρ))
    (hs : s.building = b) :
    Ends (doSingleColon mk object force targTime commands loc s) fun r => r.2.building = b := by
  unfold doSingleColon
  dsimp only
  cases commands with
  | none =>
    dsimp only
    split
    · unfold noCommands
      split
      · exact Ends.fail fun h => by cases h
      · exact Ends.pure hs
    · exact Ends.pure hs
  | some c =>
    dsimp only
    refine Ends.bind (Ends.emit _) fun _ _ => ?_
    split
    · refine Ends.bind (carryOut_ends _ hs) ?_
      rintro ⟨rc, s'⟩ hs'
      exact Ends.pure hs'
    · exact Ends.pure hs

omit [DecidableEq β] in
theorem finish_ends (status : Int) (time : Nat) (hobject : b object = false)
    (hs : s.building = update b object true) :
    Ends (finish object status time s : Trace τ β ρ _) fun r => r.2.2.building = b := by
  unfold finish
  refine Ends.bind (Ends.emit _) fun _ _ => Ends.pure ?_
  show update s.building object false = b
  rw [hs, update_idem]
  exact update_eq_self_iff.mpr hobject.symm

theorem buildObject_ends (hclosed : mk.Closed names) (hobject : object ∈ names) (flags : Bool)
    (time : Nat) (hbuilding : s.building object = false)
    (hrec : EndsWith names (update s.building object true) rec) :
    Ends (buildObject mk rec object flags time s) fun r => r.2.2.building = s.building := by
  unfold buildObject
  dsimp only
  refine Ends.bind (buildBlocks_ends hclosed hrec hobject _ _ (fun _ h => h) _ rfl) ?_
  rintro ⟨loc₁, s₁, returned⟩ hs₁
  dsimp only
  split
  · exact finish_ends _ _ hbuilding hs₁
  refine Ends.bind (useRule_ends hclosed hrec hobject _ _ hs₁) ?_
  rintro ⟨rule, loc₂, s₂⟩ hs₂
  refine Ends.bind (doSingleColon_ends _ _ _ hs₂) ?_
  rintro ⟨loc₃, s₃⟩ hs₃
  exact finish_ends _ _ hbuilding hs₃

/-- The targets that are not being built. -/
def waiting (names : Finset τ) (b : τ → Bool) : Finset τ := names.filter fun name => b name = false

omit [DecidableEq β] in
theorem waiting_update (hobject : object ∈ names) (hbuilding : b object = false) :
    (waiting names (update b object true)).card < (waiting names b).card := by
  refine Finset.card_lt_card (Finset.ssubset_iff_of_subset ?_ |>.mpr ⟨object, ?_, ?_⟩)
  · intro name hname
    obtain ⟨hmem, hwaiting⟩ := Finset.mem_filter.mp hname
    refine Finset.mem_filter.mpr ⟨hmem, ?_⟩
    by_cases hsame : name = object
    · rw [hsame]
      exact hbuilding
    · rwa [update_of_ne hsame] at hwaiting
  · exact Finset.mem_filter.mpr ⟨hobject, hbuilding⟩
  · intro hmem
    have hfalse := (Finset.mem_filter.mp hmem).2
    rw [update_self] at hfalse
    exact nomatch hfalse

/-- With more fuel than there are targets that are not being built, a build ends. -/
theorem build_ends (hclosed : mk.Closed names) (n : Nat) (b : τ → Bool)
    (hn : (waiting names b).card < n) : EndsWith names b (build mk n) := by
  induction n generalizing b with
  | zero => exact absurd hn (Nat.not_lt_zero _)
  | succ n ih =>
    rintro object hobject flags time s rfl
    unfold build
    split
    · exact Ends.fail fun h => by cases h
    case isFalse hbuilding =>
      rw [Bool.not_eq_true] at hbuilding
      split
      · unfold upToDate
        exact Ends.bind (Ends.emit _) fun _ _ => Ends.pure rfl
      · refine buildObject_ends hclosed hobject flags time hbuilding (ih _ ?_)
        exact Nat.lt_of_lt_of_le (waiting_update hobject hbuilding) (Nat.le_of_lt_succ hn)

theorem processTree_ends (hclosed : mk.Closed names) (n : Nat) (hn : names.card < n)
    (flags : Bool) (targets : List (τ × Nat)) (htargets : ∀ t ∈ targets, t.1 ∈ names) :
    Ends (processTree mk n flags targets s) fun _ => True := by
  induction targets generalizing s with
  | nil => exact Ends.pure trivial
  | cons t targets ih =>
    obtain ⟨target, time⟩ := t
    have hwaiting : (waiting names s.building).card < n :=
      Nat.lt_of_le_of_lt (Finset.card_filter_le _ _) hn
    have htarget := htargets (target, time) List.mem_cons_self
    refine Ends.bind (build_ends hclosed n _ hwaiting target htarget flags time s rfl) ?_
    rintro ⟨status, time', s'⟩ -
    exact ih fun t ht => htargets t (List.mem_cons_of_mem _ ht)

end SdkTools.Nmake.Building
