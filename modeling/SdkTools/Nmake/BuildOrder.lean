import SdkTools.Nmake.BuildEnds

/-!
# The order of builds

In a run whose decisions are regular the law of builds holds of every event, and a cycle
is reported. A double-colon block shows what happens otherwise.
-/

namespace SdkTools.Nmake.Building

open Lib Function

set_option autoImplicit false

section

variable {τ β ρ ω : Type}

instance (mk : Makefile τ β ρ ω) (d : Decision τ β ρ) : Decidable (d.Regular mk) :=
  decidable_of_iff (d.mayRun = !d.failed ∧
    (isDouble mk d.commands = true → d.failed = true →
      tie mk d.targTime d.depTime = false ∧ (d.targTime == 0 && d.depTime == 0) = false ∧
        noDependents mk d.commands = false) ∧
    (isDouble mk d.commands = true → d.failed = false → d.forced = true → d.older mk = true) ∧
    (d.due mk = true → d.fresh = true ∧ d.recorded = true))
    ⟨fun ⟨hstatus, hfailed, hforced, honce⟩ => ⟨hstatus, hfailed, hforced, honce⟩,
      fun h => ⟨h.status, h.failed, h.forced, h.once⟩⟩

instance (mk : Makefile τ β ρ ω) (e : Event τ β ρ) : Decidable (e.Regular mk) :=
  match e with
  | .decided d => inferInstanceAs (Decidable (d.Regular mk))
  | .listed .. | .returned .. => isTrue trivial

variable [DecidableEq τ] [DecidableEq β]

/-- Every run of `build` from the targets of the command line. -/
theorem build_order (mk : Makefile τ β ρ ω) (w : ω) (flags : Bool) (targets : List (τ × Nat))
    (n : Nat)
    (hregular : ∀ e ∈ (processTree mk n flags targets (.initial w)).trace, e.Regular mk) :
    Traced.Lawful (fun past e => e.Allowed mk past) []
        (processTree mk n flags targets (.initial w)).trace ∧
      (∀ object flags time s, s.building object = true →
        build mk (n + 1) object flags time s = Traced.fail .CYCLE_IN_TREE) ∧
      ∀ names, mk.Closed names → (∀ t ∈ targets, t.1 ∈ names) → names.card < n →
        (processTree mk n flags targets (.initial w)).result ≠ .error .fuel := by
  refine ⟨?_, ?_, ?_⟩
  · have hsound : Sound ([] : List (Event τ β ρ)) (State.initial (β := β) w : State τ β ω) :=
      ⟨nofun, nofun⟩
    exact (processTree_keeps n flags targets hsound hregular).1
  · intro object flags time s hbuilding
    exact if_pos hbuilding
  · intro names hclosed htargets hn hfuel
    exact (processTree_ends hclosed n hn flags targets htargets [] fun _ _ => trivial).2.1
      .fuel hfuel rfl

end

/-- `t :: d`, `d : e` and `e :` with commands, none of which is a file; the commands of `e`
have the exit code `code`. -/
def chain (fOptionK : Bool) (code : Int) : Makefile Nat Nat Unit Unit where
  fOptionK := fOptionK
  fRebuildOnTie := false
  inMakefile target := target < 3
  buildList target := if target < 3 then [target] else []
  forced _ := false
  blockForced _ := false
  doubleColon block := block == 0
  hasDependents block := block < 2
  buildCommands _ := true
  createDepList _ block _ := if block < 2 then [(block + 1, 0)] else []
  findRule _ _ := none
  ruleCommands _ := false
  fileTime _ _ := 0
  doCommands _ commands _ := if commands = .inl 2 then (code, ()) else (0, ())
  curTime _ := 1
  curTime_pos _ := Nat.one_pos

theorem build_order_chain :
    Traced.Lawful (fun past e => e.Allowed (chain false 0) past) []
      (processTree (chain false 0) 4 false [(0, 0)] (.initial ())).trace :=
  (build_order (chain false 0) () false [(0, 0)] 4 (by decide)).1

/-- Under `/K` the double-colon block of `t` is carried out although its dependent has
failed: neither has a time. -/
theorem failed_dependent_run :
    ¬Traced.Lawful (fun past e => e.Allowed (chain true 1) past) []
      (processTree (chain true 1) 4 false [(0, 0)] (.initial ())).trace := by
  intro h
  have hdecision := h ((processTree (chain true 1) 4 false [(0, 0)] (.initial ())).trace.take 7)
    (.decided ⟨.inl 0, 0, [(1, 1, 0)], false, false, 0, 0, true, true, true⟩)
    [.returned 0 1 1] rfl
  exact absurd hdecision.due (by decide)

end SdkTools.Nmake.Building
