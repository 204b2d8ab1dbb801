import SdkTools.Lib.TraceRules
import SdkTools.Nmake.Build

/-!
# The law of builds

What is decided about the commands of a block or of a rule, in every run whose decisions
are regular: they are carried out at most once, after the dependents have been built, and
just when the target has to be rebuilt.
-/

namespace SdkTools.Nmake.Building

open Lib Function

set_option autoImplicit false

section

variable {τ β ρ ω : Type} (mk : Makefile τ β ρ ω)

/-- The commands are those of a double-colon block. -/
def isDouble : β ⊕ ρ → Bool
  | .inl block => mk.doubleColon block
  | .inr _ => false

/-- The commands are those of a double-colon block without dependents. -/
def noDependents : β ⊕ ρ → Bool
  | .inl block => mk.doubleColon block && !mk.hasDependents block
  | .inr _ => false

/-- The build of a dependent has failed. -/
def Decision.failed (d : Decision τ β ρ) : Bool := d.dependents.any fun p => p.2.1 ≠ 0

/-- The time of the newest dependent. -/
def newest (dependents : List (τ × Int × Nat)) : Nat :=
  dependents.foldr (fun p time => max p.2.2 time) 0

/-- The target is older than the newest dependent, or counts as older. -/
def Decision.older (d : Decision τ β ρ) : Bool :=
  d.targTime < d.depTime || tie mk d.targTime d.depTime || d.targTime == 0 && d.depTime == 0 ||
    noDependents mk d.commands

/-- The commands are due: no dependent has failed, and the target is older or forced. -/
def Decision.due (d : Decision τ β ρ) : Bool :=
  !d.failed && (d.older mk || d.forced)

/-- The state before a decision is one in which the code does what it is meant to: the
status and `F3_ERROR_IN_CHILD` say whether a dependent has failed; a double-colon block
whose dependent has failed is not older by a tie, by times of 0 or for want of dependents,
and is not due by force alone; and a block that is due has no time yet and is the one that
gets one. -/
structure Decision.Regular (d : Decision τ β ρ) : Prop where
  status : d.mayRun = !d.failed
  failed : isDouble mk d.commands = true → d.failed = true →
    tie mk d.targTime d.depTime = false ∧ (d.targTime == 0 && d.depTime == 0) = false ∧
      noDependents mk d.commands = false
  forced : isDouble mk d.commands = true → d.failed = false → d.forced = true →
    d.older mk = true
  once : d.due mk = true → d.fresh = true ∧ d.recorded = true

def Event.Regular : Event τ β ρ → Prop
  | .decided d => d.Regular mk
  | _ => True

/-- The builds of the dependents have returned what is said of them. -/
def Built (past : List (Event τ β ρ)) (dependents : List (τ × Int × Nat)) : Prop :=
  ∀ p ∈ dependents, Event.returned p.1 p.2.1 p.2.2 ∈ past

/-- Two decisions are about the commands of one block, or about rules for one target. -/
def Decision.Repeats (d d' : Decision τ β ρ) : Prop :=
  match d.commands, d'.commands with
  | .inl block, .inl block' => block = block'
  | .inr _, .inr _ => d.target = d'.target
  | _, _ => False

/-- The dependents of the commands are among those that have been built. -/
def Listed (past : List (Event τ β ρ)) (commands : β ⊕ ρ) (target : τ)
    (dependents : List (τ × Int × Nat)) : Prop :=
  ∃ names, Event.listed commands target names ∈ past ∧ names ⊆ dependents.map Prod.fst

/-- No decision so far has carried these commands out. -/
def NotRun (past : List (Event τ β ρ)) (d : Decision τ β ρ) : Prop :=
  ∀ d', Event.decided d' ∈ past → d'.Repeats d → d'.run = false

/-- The law for a decision after the events `past`. -/
structure Decision.Lawful (past : List (Event τ β ρ)) (d : Decision τ β ρ) : Prop where
  due : d.run = d.due mk
  once : d.run = true → NotRun past d
  built : Built past d.dependents
  listed : Listed past d.commands d.target d.dependents
  newest : d.depTime = newest d.dependents

def Event.Allowed (past : List (Event τ β ρ)) : Event τ β ρ → Prop
  | .decided d => d.Lawful mk past
  | _ => True

/-- Block times and targets that have been built stay so. -/
structure Grows (s s' : State τ β ω) : Prop where
  times : ∀ block, s.blockTime block ≠ 0 → s'.blockTime block ≠ 0
  built : ∀ target, s.alreadyBuilt target = true → s'.alreadyBuilt target = true

/-- A block whose commands have been carried out has a time, and a target for which those
of a rule have been carried out has been built. -/
structure Sound (past : List (Event τ β ρ)) (s : State τ β ω) : Prop where
  timed : ∀ d block, Event.decided d ∈ past → d.run = true → d.commands = .inl block →
    s.blockTime block ≠ 0
  ruled : ∀ d rule, Event.decided d ∈ past → d.run = true → d.commands = .inr rule →
    s.alreadyBuilt d.target = true

/-- The targets being built stay the same, and are not built in between. -/
structure Kept (s s' : State τ β ω) : Prop where
  building : s'.building = s.building
  alreadyBuilt : ∀ target, s.building target = true →
    s'.alreadyBuilt target = s.alreadyBuilt target

variable {mk} {past later : List (Event τ β ρ)} {s s' s'' : State τ β ω}

theorem newest_append (deps deps' : List (τ × Int × Nat)) :
    newest (deps ++ deps') = max (newest deps) (newest deps') := by
  induction deps with
  | nil => exact (Nat.zero_max _).symm
  | cons dep deps ih => exact (congrArg (max dep.2.2) ih).trans (Nat.max_assoc _ _ _).symm

/-- One more dependent has been built. -/
theorem newest_snoc (deps : List (τ × Int × Nat)) (name : τ) (rc : Int) (time : Nat) :
    newest (deps ++ [(name, rc, time)]) = max (newest deps) time := by
  rw [newest_append]
  exact congrArg (max (newest deps)) (Nat.max_zero time)

theorem Built.mono {deps : List (τ × Int × Nat)} (h : Built past deps) (hsub : past <+: later) :
    Built later deps :=
  fun p hp => hsub.subset (h p hp)

theorem Built.nil (past : List (Event τ β ρ)) : Built past ([] : List (τ × Int × Nat)) :=
  nofun

theorem Built.snoc {deps : List (τ × Int × Nat)} {name : τ} {rc : Int} {time : Nat}
    (h : Built past deps) (hmem : Event.returned name rc time ∈ past) :
    Built past (deps ++ [(name, rc, time)]) := by
  intro p hp
  rcases List.mem_append.mp hp with hp | hp
  · exact h p hp
  · obtain rfl := List.mem_singleton.mp hp
    exact hmem

theorem Listed.mono {commands : β ⊕ ρ} {target : τ} {deps deps' : List (τ × Int × Nat)}
    (h : Listed past commands target deps) (hsub : past <+: later) (hdeps : deps ⊆ deps') :
    Listed later commands target deps' := by
  obtain ⟨names, hmem, hnames⟩ := h
  exact ⟨names, hsub.subset hmem, List.Subset.trans hnames (List.map_subset _ hdeps)⟩

theorem Grows.rfl : Grows s s := ⟨fun _ h => h, fun _ h => h⟩

theorem Grows.trans (h : Grows s s') (h' : Grows s' s'') : Grows s s'' :=
  ⟨fun b hb => h'.times b (h.times b hb), fun t ht => h'.built t (h.built t ht)⟩

theorem Kept.rfl : Kept s s := ⟨Eq.refl _, fun _ _ => Eq.refl _⟩

theorem Kept.trans (h : Kept s s') (h' : Kept s' s'') : Kept s s'' where
  building := h'.building.trans h.building
  alreadyBuilt target htarget := by
    rw [h'.alreadyBuilt target (by rw [h.building]; exact htarget)]
    exact h.alreadyBuilt target htarget

theorem Sound.grow (h : Sound past s) (hgrows : Grows s s') : Sound past s' where
  timed d block hd hrun hblock := hgrows.times block (h.timed d block hd hrun hblock)
  ruled d rule hd hrun hrule := hgrows.built d.target (h.ruled d rule hd hrun hrule)

/-- One more event, which carries commands out only if the state says so. -/
theorem Sound.snoc {e : Event τ β ρ} (h : Sound past s) (hgrows : Grows s s')
    (htimed : ∀ d block, e = .decided d → d.run = true → d.commands = .inl block →
      s'.blockTime block ≠ 0)
    (hruled : ∀ d rule, e = .decided d → d.run = true → d.commands = .inr rule →
      s'.alreadyBuilt d.target = true) : Sound (past ++ [e]) s' where
  timed d block hd hrun hblock := by
    rcases List.mem_append.mp hd with hd | hd
    · exact (h.grow hgrows).timed d block hd hrun hblock
    · exact htimed d block (List.mem_singleton.mp hd).symm hrun hblock
  ruled d rule hd hrun hrule := by
    rcases List.mem_append.mp hd with hd | hd
    · exact (h.grow hgrows).ruled d rule hd hrun hrule
    · exact hruled d rule (List.mem_singleton.mp hd).symm hrun hrule

/-- An event that is no decision. -/
theorem Sound.other {e : Event τ β ρ} (h : Sound past s) (he : ∀ d, e ≠ .decided d) :
    Sound (past ++ [e]) s :=
  h.snoc Grows.rfl (fun d _ hd => absurd hd (he d)) (fun d _ hd => absurd hd (he d))

/-- A decision not to carry the commands out. -/
theorem Sound.skipped {d : Decision τ β ρ} (h : Sound past s) (hrun : d.run = false) :
    Sound (past ++ [.decided d]) s := by
  have hnot : ∀ d', Event.decided d = .decided d' → d'.run ≠ true := by
    intro d' heq
    cases heq
    rw [hrun]
    exact Bool.false_ne_true
  exact h.snoc Grows.rfl (fun d' _ heq hd' => absurd hd' (hnot d' heq))
    (fun d' _ heq hd' => absurd hd' (hnot d' heq))

/-- A decision to carry the commands out, and the state that remembers it. -/
theorem Sound.ran {d : Decision τ β ρ} (h : Sound past s) (hgrows : Grows s s')
    (hblock : ∀ block, d.commands = .inl block → s'.blockTime block ≠ 0)
    (hrule : ∀ rule, d.commands = .inr rule → s'.alreadyBuilt d.target = true) :
    Sound (past ++ [.decided d]) s' := by
  refine h.snoc hgrows (fun d' block heq _ hc => ?_) (fun d' rule heq _ hc => ?_)
  · cases heq
    exact hblock block hc
  · cases heq
    exact hrule rule hc

/-- The commands of a block without a time, or of a rule for a target that has not been
built, have not been carried out. -/
theorem Sound.notRun {d : Decision τ β ρ} (h : Sound past s) (hfresh : fresh s d.commands = true)
    (hbuilt : ∀ rule, d.commands = .inr rule → s.alreadyBuilt d.target = false) :
    NotRun past d := by
  intro d' hd' hrepeats
  by_contra hrun
  rw [Bool.not_eq_false] at hrun
  rcases hc' : d'.commands with block' | rule' <;> rcases hc : d.commands with block | rule <;>
    simp only [Decision.Repeats, hc, hc'] at hrepeats
  · subst hrepeats
    rw [hc] at hfresh
    exact h.timed d' block' hd' hrun hc' (by simpa [fresh] using hfresh)
  · have halready := h.ruled d' rule' hd' hrun hc'
    rw [hrepeats, hbuilt rule hc] at halready
    exact nomatch halready

/-- For single-colon blocks and for rules the code follows the law. -/
theorem Decision.Regular.run_single {d : Decision τ β ρ} (h : d.Regular mk)
    (hsingle : isDouble mk d.commands = false)
    (hrun : d.run = (d.mayRun && (d.targTime < d.depTime || tie mk d.targTime d.depTime ||
      d.targTime == 0 && d.depTime == 0 || d.forced))) : d.run = d.due mk := by
  have hnone : noDependents mk d.commands = false := by
    cases hc : d.commands with
    | inl block =>
      rw [hc] at hsingle
      simp only [noDependents, show mk.doubleColon block = false from hsingle, Bool.false_and]
    | inr rule => rfl
  rw [hrun, h.status, Decision.due, Decision.older, hnone, Bool.or_false]

/-- For double-colon blocks it does so in a regular decision. -/
theorem Decision.Regular.run_double {d : Decision τ β ρ} (h : d.Regular mk)
    (hdouble : isDouble mk d.commands = true)
    (hrun : d.run = (d.mayRun && d.targTime < d.depTime || tie mk d.targTime d.depTime ||
      d.targTime == 0 && d.depTime == 0 || noDependents mk d.commands)) : d.run = d.due mk := by
  rw [hrun, h.status]
  cases hfailed : d.failed with
  | true =>
    obtain ⟨htie, hzero, hnone⟩ := h.failed hdouble hfailed
    simp only [htie, hzero, hnone, Decision.due, hfailed, Bool.not_true, Bool.false_and,
      Bool.or_false]
  | false =>
    have holder : d.due mk = d.older mk := by
      cases hforced : d.forced with
      | false => simp only [Decision.due, hfailed, hforced, Bool.not_false, Bool.true_and,
          Bool.or_false]
      | true =>
        simp only [Decision.due, h.forced hdouble hfailed hforced, hfailed, Bool.not_false,
          Bool.true_and, Bool.true_or]
    rw [holder, Bool.not_false, Bool.true_and, Decision.older]

end

end SdkTools.Nmake.Building
