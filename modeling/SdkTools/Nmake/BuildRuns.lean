import Mathlib
import SdkTools.Nmake.BuildLaw

/-!
# Runs of builds

Every part of `build` keeps the law: the dependents of a block are built before its
commands are considered, and the times of the blocks tell which commands have been
carried out.
-/

namespace SdkTools.Nmake.Building

open Lib Function

set_option autoImplicit false

section

variable {τ β ρ ω : Type} {mk : Makefile τ β ρ ω}

/-- The rule for `build` and its parts. -/
abbrev Keeps (mk : Makefile τ β ρ ω) {α : Type} (l : List (Event τ β ρ)) (x : Trace τ β ρ α)
    (R : α → List (Event τ β ρ) → Prop) : Prop :=
  Traced.Leaves (Event.Regular mk) (fun past e => e.Allowed mk past) (fun _ => True) l x R

/-- What every part of `build` keeps. -/
structure Step (l l' : List (Event τ β ρ)) (s s' : State τ β ω) : Prop where
  sub : l <+: l'
  sound : Sound l' s'
  kept : Kept s s'

/-- What is known after a build. -/
structure AfterBuild (object : τ) (l : List (Event τ β ρ)) (s : State τ β ω)
    (r : Int × Nat × State τ β ω) (l' : List (Event τ β ρ)) : Prop extends
    Step l l' s r.2.2 where
  returned : Event.returned object r.1 r.2.1 ∈ l'

def Builds (mk : Makefile τ β ρ ω) (rec : Builder τ β ρ ω) : Prop :=
  ∀ object flags time s l, Sound l s →
    Keeps mk l (rec object flags time s) (AfterBuild object l s)

variable {object : τ} {l l' l'' : List (Event τ β ρ)} {s s' s'' : State τ β ω}

theorem Step.rfl (h : Sound l s) : Step l l s s := ⟨List.prefix_rfl, h, Kept.rfl⟩

theorem Step.trans (h : Step l l' s s') (h' : Step l' l'' s' s'') : Step l l'' s s'' :=
  ⟨h.sub.trans h'.sub, h'.sound, h.kept.trans h'.kept⟩

/-- After an event that is no decision. -/
theorem Step.other {e : Event τ β ρ} (h : Sound l s) (he : ∀ d, e ≠ .decided d) :
    Step l (l ++ [e]) s s :=
  ⟨List.prefix_append l [e], h.other he, Kept.rfl⟩

/-- A state with the same flags and block times. -/
theorem Step.same (h : Step l l' s s') (hflags : s''.building = s'.building ∧
    s''.alreadyBuilt = s'.alreadyBuilt ∧ s''.blockTime = s'.blockTime) : Step l l' s s'' where
  sub := h.sub
  sound := by
    obtain ⟨-, hbuilt, htime⟩ := hflags
    exact h.sound.grow ⟨fun b hb => by rwa [htime], fun t ht => by rwa [hbuilt]⟩
  kept := h.kept.trans ⟨hflags.1, fun t _ => by rw [hflags.2.1]⟩

/-- What is known between the blocks of a target. -/
structure Singles (mk : Makefile τ β ρ ω) (object : τ) (past : List (Event τ β ρ))
    (loc : Locals τ β) : Prop where
  built : Built past loc.built
  newest : loc.maxDepTime = newest loc.built
  block : ∀ block, loc.explComBlock = some block →
    mk.doubleColon block = false ∧ Listed past (.inl block) object loc.built

theorem Singles.mono {loc : Locals τ β} (h : Singles mk object l loc) (hsub : l <+: l') :
    Singles mk object l' loc where
  built := h.built.mono hsub
  newest := h.newest
  block block hblock :=
    ⟨(h.block block hblock).1, (h.block block hblock).2.mono hsub (List.Subset.refl _)⟩

/-- The event of a decision. -/
theorem decided_keeps {d : Decision τ β ρ} (hrun : d.Regular mk → d.run = d.due mk)
    (hfresh : d.fresh = true → NotRun l d) (hbuilt : Built l d.dependents)
    (hlisted : Listed l d.commands d.target d.dependents)
    (hnewest : d.depTime = newest d.dependents) :
    Keeps mk l (Traced.emit (.decided d))
      (fun _ l' => l' = l ++ [.decided d] ∧ d.Regular mk ∧ d.run = d.due mk) := by
  refine Traced.Leaves.emit fun hregular => ⟨?_, rfl, hregular, hrun hregular⟩
  refine ⟨hrun hregular, fun hran => ?_, hbuilt, hlisted, hnewest⟩
  rw [hrun hregular] at hran
  exact hfresh (hregular.once hran).1

/-- The event of the dependents of a block or of a rule. -/
theorem listed_keeps {commands : β ⊕ ρ} {names : List τ} (h : Sound l s) :
    Keeps mk l (Traced.emit (.listed commands object names)) (fun _ l' => Step l l' s s ∧
      ∀ deps : List (τ × Int × Nat), names ⊆ deps.map Prod.fst →
        Listed l' commands object deps) := by
  refine Traced.Leaves.emit fun _ => ⟨trivial, Step.other h nofun, fun deps hsub => ?_⟩
  exact ⟨names, List.mem_append_right _ (List.mem_singleton_self _), hsub⟩

end

section

variable {τ β ρ ω : Type} [DecidableEq τ] [DecidableEq β] {mk : Makefile τ β ρ ω}
  {rec : Builder τ β ρ ω} {object : τ} {l l' : List (Event τ β ρ)} {s : State τ β ω}
  {loc : Locals τ β}

/-- Times are only set. -/
theorem update_time {blockTime : β → Nat} {block : β} {time : Nat} (htime : time ≠ 0) (b : β)
    (hb : b = block ∨ blockTime b ≠ 0) : update blockTime block time b ≠ 0 := by
  by_cases hblock : b = block
  · rw [hblock, update_self]
    exact htime
  · rw [update_of_ne hblock]
    exact hb.resolve_left hblock

omit [DecidableEq τ] in
theorem setBlockTime_keeps {commands : β ⊕ ρ} {time : Nat} (htime : time ≠ 0)
    (blockTime : β → Nat) (b : β) (hb : blockTime b ≠ 0) :
    setBlockTime loc time blockTime commands b ≠ 0 := by
  cases commands with
  | inr rule => exact hb
  | inl block =>
    cases hlast : loc.blockTime with
    | none => simpa only [setBlockTime, hlast] using hb
    | some last =>
      simp only [setBlockTime, hlast]
      exact update_time htime b (.inr hb)

omit [DecidableEq τ] in
theorem setBlockTime_recorded {commands : β ⊕ ρ} {block : β} {time : Nat} (htime : time ≠ 0)
    (blockTime : β → Nat) (hblock : commands = .inl block)
    (hrecorded : recorded loc commands = true) :
    setBlockTime loc time blockTime commands block ≠ 0 := by
  subst hblock
  have hlast : loc.blockTime = some block := by simpa [recorded] using hrecorded
  simp only [setBlockTime, hlast]
  exact update_time htime block (.inl rfl)

omit [DecidableEq τ] [DecidableEq β] in
/-- Commands that are carried out change the world only. -/
theorem carryOut_keeps {commands : β ⊕ ρ} {R : Int × State τ β ω → List (Event τ β ρ) → Prop}
    (h : ∀ rc w, R (rc, { s with world := w }) l) :
    Keeps mk l (carryOut mk commands object s) R := by
  unfold carryOut
  dsimp only
  split
  · exact Traced.Leaves.fail trivial
  · exact Traced.Leaves.pure (h _ _)

omit [DecidableEq β] in
theorem noteFailure_kept (mk : Makefile τ β ρ ω) (object : τ) (s : State τ β ω) (rc : Int) :
    (noteFailure mk object rc s).building = s.building ∧
      (noteFailure mk object rc s).alreadyBuilt = s.alreadyBuilt ∧
      (noteFailure mk object rc s).blockTime = s.blockTime := by
  unfold noteFailure
  split <;> exact ⟨rfl, rfl, rfl⟩

omit [DecidableEq β] in
theorem noteTime_kept (object : τ) (s : State τ β ω) (wanted : Bool) (found : Nat) :
    (noteTime object wanted found s).building = s.building ∧
      (noteTime object wanted found s).alreadyBuilt = s.alreadyBuilt ∧
      (noteTime object wanted found s).blockTime = s.blockTime := by
  unfold noteTime
  split <;> exact ⟨rfl, rfl, rfl⟩

/-- What is known after the dependents of a block have been built. -/
structure DepsBuilt (deps : List (τ × Nat)) (loc : Locals τ β) (l : List (Event τ β ρ))
    (s : State τ β ω) (r : Locals τ β × State τ β ω) (l' : List (Event τ β ρ)) : Prop extends
    Step l l' s r.2 where
  built : Built l' r.1.built
  old : loc.built ⊆ r.1.built
  names : deps.map Prod.fst ⊆ r.1.built.map Prod.fst
  newest : ∀ time, newest loc.built = max time loc.depTime →
    newest r.1.built = max time r.1.depTime
  maxDepTime : r.1.maxDepTime = loc.maxDepTime
  explComBlock : r.1.explComBlock = loc.explComBlock

omit [DecidableEq β] in
theorem buildDeps_keeps (hrec : Builds mk rec) (flags double : Bool) (deps : List (τ × Nat))
    (loc : Locals τ β) (hsound : Sound l s) (hbuilt : Built l loc.built) :
    Keeps mk l (buildDeps mk rec object flags double deps loc s) (DepsBuilt deps loc l s) := by
  induction deps generalizing l s loc with
  | nil =>
    exact Traced.Leaves.pure ⟨Step.rfl hsound, hbuilt, List.Subset.refl _, List.nil_subset _,
      fun _ h => h, rfl, rfl⟩
  | cons dep deps ih =>
    obtain ⟨name, depTime⟩ := dep
    refine Traced.Leaves.bind (hrec name flags depTime s l hsound) ?_
    rintro ⟨rc, tempTime, s'⟩ l' ⟨hstep, hreturned⟩
    have hstep' := (hstep.same (noteFailure_kept mk object s' rc)).same
      (noteTime_kept object _ (loc.targTime = 0 && !double && mk.fileTime s'.world object ≠ 0)
        (mk.fileTime s'.world object))
    refine Traced.Leaves.mono (ih _ hstep'.sound ((hbuilt.mono hstep.sub).snoc hreturned)) ?_
    rintro ⟨loc', s''⟩ l'' ⟨hrest, hbuilt', hold, hnames, hnewest, hmax, hexpl⟩
    have hname : name ∈ loc'.built.map Prod.fst :=
      List.mem_map_of_mem (hold (List.mem_append_right _ (List.mem_singleton_self _)))
    refine ⟨hstep'.trans hrest, hbuilt', List.Subset.trans (List.subset_append_left _ _) hold,
      List.cons_subset.mpr ⟨hname, hnames⟩, fun time htime => hnewest time ?_, hmax, hexpl⟩
    rw [newest_snoc, htime, Nat.max_assoc]

omit [DecidableEq τ] in
theorem doDoubleColon_keeps (force : Bool) {block : β} (hdouble : mk.doubleColon block = true)
    (hsound : Sound l s) (hbuilt : Built l loc.built)
    (hlisted : Listed l (.inl block) object loc.built) (hnewest : loc.depTime = newest loc.built) :
    Keeps mk l (doDoubleColon mk object force block loc s) (fun r l' => Step l l' s r.2 ∧
      r.1.maxDepTime = loc.maxDepTime ∧ r.1.explComBlock = loc.explComBlock) := by
  unfold doDoubleColon
  split
  · exact Traced.Leaves.pure ⟨Step.rfl hsound, rfl, rfl⟩
  dsimp only
  refine Traced.Leaves.bind
    (decided_keeps (fun hregular => ?_) (fun hfresh => ?_) hbuilt hlisted hnewest) ?_
  · refine hregular.run_double hdouble ?_
    simp only [noDependents, hdouble, Bool.true_and]
  · exact hsound.notRun hfresh fun rule hrule => by cases hrule
  · rintro - l' ⟨rfl, -, -⟩
    split
    case isFalse hrun =>
      exact Traced.Leaves.pure ⟨⟨List.prefix_append l _, hsound.skipped (Bool.eq_false_iff.mpr hrun),
        Kept.rfl⟩, rfl, rfl⟩
    case isTrue hrun =>
      refine Traced.Leaves.bind (carryOut_keeps (R := fun r l' => l' = l ++ [_] ∧
        ∃ w, r.2 = { s with world := w }) fun rc w => ⟨rfl, w, rfl⟩) ?_
      rintro ⟨rc, s'⟩ l' ⟨rfl, w, rfl⟩
      refine Traced.Leaves.pure ⟨⟨List.prefix_append l _, ?_, ⟨rfl, fun _ _ => rfl⟩⟩, rfl, rfl⟩
      have htime : (if mk.fileTime w object ≠ 0 then mk.fileTime w object
          else if loc.maxDepTime ≠ 0 then loc.maxDepTime else mk.curTime w) ≠ 0 := by
        have hclock := mk.curTime_pos w
        split_ifs <;> omega
      refine hsound.ran ⟨fun b hb => update_time htime b (.inr hb), fun _ ht => ht⟩
        (fun b hb => update_time htime b (.inl ?_)) fun rule hrule => by cases hrule
      exact (Sum.inl.inj hb).symm

/-- What is known after the blocks of a target. -/
structure BlocksDone (mk : Makefile τ β ρ ω) (object : τ) (l : List (Event τ β ρ))
    (s : State τ β ω) (r : Locals τ β × State τ β ω × Bool) (l' : List (Event τ β ρ)) : Prop extends
    Step l l' s r.2.1 where
  singles : Singles mk object l' r.1

theorem buildBlocks_keeps (hrec : Builds mk rec) (force : Bool) (blocks : List β)
    (loc : Locals τ β) (hsound : Sound l s) (hsingles : Singles mk object l loc) :
    Keeps mk l (buildBlocks mk rec object force blocks loc s) (BlocksDone mk object l s) := by
  induction blocks generalizing l s loc with
  | nil => exact Traced.Leaves.pure ⟨Step.rfl hsound, hsingles⟩
  | cons block blocks ih =>
    unfold buildBlocks
    by_cases htime : s.blockTime block ≠ 0
    · rw [if_pos htime]
      exact ih _ hsound ⟨hsingles.built, hsingles.newest, hsingles.block⟩
    rw [if_neg htime]
    dsimp only
    refine Traced.Leaves.bind (listed_keeps hsound) ?_
    rintro - l₁ ⟨hstep₁, hlisted⟩
    cases hdouble : mk.doubleColon block with
    | true =>
      refine Traced.Leaves.bind (buildDeps_keeps hrec _ _ _ _ hstep₁.sound (Built.nil l₁)) ?_
      rintro ⟨loc₂, s₂⟩ l₂ ⟨hstep₂, hbuilt₂, -, hnames₂, hnewest₂, hmax₂, hexpl₂⟩
      have hdepTime : loc₂.depTime = newest loc₂.built :=
        ((hnewest₂ 0 rfl).trans (Nat.zero_max _)).symm
      have hlisted₂ := (hlisted _ hnames₂).mono hstep₂.sub (List.Subset.refl _)
      refine Traced.Leaves.bind
        (doDoubleColon_keeps force hdouble hstep₂.sound hbuilt₂ hlisted₂ hdepTime) ?_
      rintro ⟨loc₃, s₃⟩ l₃ ⟨hstep₃, hmax₃, hexpl₃⟩
      have hstep := (hstep₁.trans hstep₂).trans hstep₃
      have hsingles₃ : Singles mk object l₃ { loc₃ with built := loc.built } :=
        ⟨hsingles.built.mono hstep.sub, (hmax₃.trans hmax₂).trans hsingles.newest, fun b hb =>
          (hsingles.mono hstep.sub).block b ((hexpl₃.trans hexpl₂).symm.trans hb)⟩
      show Keeps mk l₃ (if blocks.isEmpty then _ else _) _
      split
      · exact Traced.Leaves.pure ⟨hstep, hsingles₃⟩
      · exact (ih _ hstep.sound hsingles₃).mono fun r l' h => ⟨hstep.trans h.toStep, h.singles⟩
    | false =>
      refine Traced.Leaves.bind
        (buildDeps_keeps hrec _ _ _ _ hstep₁.sound (hsingles.built.mono hstep₁.sub)) ?_
      rintro ⟨loc₂, s₂⟩ l₂ ⟨hstep₂, hbuilt₂, hold₂, hnames₂, hnewest₂, hmax₂, hexpl₂⟩
      have hstep := hstep₁.trans hstep₂
      have hlisted₂ := (hlisted _ hnames₂).mono hstep₂.sub (List.Subset.refl _)
      show Keeps mk l₂ (if mk.buildCommands block && loc₂.explComBlock.isSome then _ else _) _
      split
      · exact Traced.Leaves.fail trivial
      · have hsingles₂ : Singles mk object l₂ { loc₂ with
            explComBlock := if mk.buildCommands block then some block else loc₂.explComBlock
            maxDepTime := max loc₂.maxDepTime loc₂.depTime } := by
          refine ⟨hbuilt₂, ?_, fun b hb => ?_⟩
          · refine (hnewest₂ loc₂.maxDepTime ?_).symm
            rw [hmax₂]
            exact hsingles.newest.symm.trans (Nat.max_zero _).symm
          dsimp only at hb
          split at hb
          · obtain rfl := Option.some.inj hb
            exact ⟨hdouble, hlisted₂⟩
          · obtain ⟨hsingle, hbefore⟩ := hsingles.block b (hexpl₂.symm.trans hb)
            exact ⟨hsingle, hbefore.mono hstep.sub hold₂⟩
        exact (ih _ hstep.sound hsingles₂).mono fun r l' h => ⟨hstep.trans h.toStep, h.singles⟩

/-- What is known after a rule has been looked for. -/
structure RuleUsed (mk : Makefile τ β ρ ω) (object : τ) (l : List (Event τ β ρ))
    (s : State τ β ω) (r : Option ρ × Locals τ β × State τ β ω) (l' : List (Event τ β ρ)) :
    Prop extends Step l l' s r.2.2 where
  singles : Singles mk object l' r.2.1
  rule : ∀ rule, r.1 = some rule → Listed l' (.inr rule) object r.2.1.built

omit [DecidableEq τ] [DecidableEq β] in
theorem useRule_keeps (hrec : Builds mk rec) (force : Bool) (targTime : Nat)
    (hsound : Sound l s) (hsingles : Singles mk object l loc) :
    Keeps mk l (useRule mk rec object force targTime loc s) (RuleUsed mk object l s) := by
  unfold useRule
  split
  · exact Traced.Leaves.pure ⟨Step.rfl hsound, hsingles, nofun⟩
  case h_2 rule name time _ =>
    refine Traced.Leaves.bind (listed_keeps hsound) ?_
    rintro - l₁ ⟨hstep₁, hlisted⟩
    refine Traced.Leaves.bind (hrec name force time s l₁ hstep₁.sound) ?_
    rintro ⟨rc, tempTime, s₂⟩ l₂ ⟨hstep₂, hreturned⟩
    have hstep := hstep₁.trans hstep₂
    have hsingles₂ := hsingles.mono hstep.sub
    refine Traced.Leaves.pure ⟨hstep, ⟨hsingles₂.built.snoc hreturned, ?_, fun b hb => ?_⟩, ?_⟩
    · rw [newest_snoc, ← hsingles₂.newest]
    · obtain ⟨hsingle, hbefore⟩ := hsingles₂.block b hb
      exact ⟨hsingle, hbefore.mono List.prefix_rfl (List.subset_append_left _ _)⟩
    · intro rule' hrule
      obtain rfl := Option.some.inj hrule
      refine (hlisted _ ?_).mono hstep₂.sub (List.Subset.refl _)
      rw [List.map_append]
      exact List.subset_append_right _ _

/-- The state in which a target has been built. -/
def State.finished (object : τ) (s : State τ β ω) : State τ β ω :=
  { s with alreadyBuilt := update s.alreadyBuilt object true }

omit [DecidableEq β] in
theorem grows_finished : Grows s (s.finished object) where
  times _ h := h
  built target h := by
    by_cases hobject : target = object
    · subst hobject
      exact update_self ..
    · exact (update_of_ne hobject ..).trans h

/-- What is known when a target comes to its end. -/
structure Ending (object : τ) (l l' : List (Event τ β ρ)) (s s' : State τ β ω) : Prop where
  sub : l <+: l'
  sound : Sound l' (s'.finished object)
  kept : Kept s s'

omit [DecidableEq β] in
theorem Step.ending {s' : State τ β ω} (h : Step l l' s s') : Ending object l l' s s' :=
  ⟨h.sub, h.sound.grow grows_finished, h.kept⟩

theorem doSingleColon_keeps (force : Bool) (targTime : Nat) {commands : Option (β ⊕ ρ)}
    (hsound : Sound l s) (hbuilt : Built l loc.built) (hnewest : loc.maxDepTime = newest loc.built)
    (hobject : s.alreadyBuilt object = false)
    (hcommands : ∀ c, commands = some c → isDouble mk c = false ∧ Listed l c object loc.built) :
    Keeps mk l (doSingleColon mk object force targTime commands loc s)
      (fun r l' => Ending object l l' s r.2) := by
  unfold doSingleColon
  dsimp only
  cases commands with
  | none =>
    dsimp only
    split
    · unfold noCommands
      split
      · exact Traced.Leaves.fail trivial
      · exact Traced.Leaves.pure (Step.rfl hsound).ending
    · exact Traced.Leaves.pure (Step.rfl hsound).ending
  | some c =>
    obtain ⟨hsingle, hlisted⟩ := hcommands c rfl
    dsimp only
    refine Traced.Leaves.bind
      (decided_keeps (fun hregular => ?_) (fun hfresh => ?_) hbuilt hlisted hnewest) ?_
    · exact hregular.run_single hsingle rfl
    · exact hsound.notRun hfresh fun _ _ => hobject
    rintro - l' ⟨rfl, hregular, hrun⟩
    split
    case isFalse hskip =>
      refine Traced.Leaves.pure (Step.ending ⟨List.prefix_append l _, ?_, Kept.rfl⟩)
      exact hsound.skipped (Bool.eq_false_iff.mpr hskip)
    case isTrue hran =>
      refine Traced.Leaves.bind (carryOut_keeps (R := fun r l' => l' = l ++ [_] ∧
        ∃ w, r.2 = { s with world := w }) fun rc w => ⟨rfl, w, rfl⟩) ?_
      rintro ⟨rc, s'⟩ l' ⟨rfl, w, rfl⟩
      have htime : mk.curTime w + 2 ≠ 0 := Nat.succ_ne_zero _
      have hrecorded := (hregular.once (hrun.symm.trans hran)).2
      refine Traced.Leaves.pure ⟨List.prefix_append l _, ?_, ⟨rfl, fun _ _ => rfl⟩⟩
      refine hsound.ran ⟨setBlockTime_keeps htime s.blockTime, grows_finished.built⟩
        (fun block hblock => ?_) (fun rule _ => update_self ..)
      exact setBlockTime_recorded htime s.blockTime hblock hrecorded

omit [DecidableEq β] in
/-- A build that has begun with the target not being built and not built comes to its end. -/
theorem finish_keeps {s₀ s₁ : State τ β ω} (status : Int) (time : Nat)
    (hbuilding : s₀.building object = false)
    (hs₁ : s₁ = { s₀ with building := update s₀.building object true })
    (hending : Ending object l l' s₁ s) :
    Keeps mk l' (finish object status time s) (AfterBuild object l s₀) := by
  subst hs₁
  have hflags : update s.building object false = s₀.building := by
    rw [hending.kept.building, update_idem]
    exact update_eq_self_iff.mpr hbuilding.symm
  unfold finish
  refine Traced.Leaves.bind (R := fun _ l'' => l'' = l' ++ [.returned object status time])
    (Traced.Leaves.emit fun _ => ⟨trivial, rfl⟩) ?_
  rintro - l'' rfl
  refine Traced.Leaves.pure ⟨⟨hending.sub.trans (List.prefix_append l' _), ?_, hflags, ?_⟩,
    List.mem_append_right _ (List.mem_singleton_self _)⟩
  · have hsound : Sound (l' ++ [.returned object status time]) (s.finished object) :=
      hending.sound.other nofun
    exact hsound.grow ⟨fun _ h => h, fun _ h => h⟩
  · intro target htarget
    have hother : target ≠ object := by
      rintro rfl
      rw [hbuilding] at htarget
      exact nomatch htarget
    refine (update_of_ne hother ..).trans (hending.kept.alreadyBuilt target ?_)
    exact (update_of_ne hother ..).trans htarget

theorem buildObject_keeps (hrec : Builds mk rec) (flags : Bool) (time : Nat)
    (hsound : Sound l s) (hbuilding : s.building object = false)
    (hobject : s.alreadyBuilt object = false) :
    Keeps mk l (buildObject mk rec object flags time s) (AfterBuild object l s) := by
  have hstart : Sound l { s with building := update s.building object true } :=
    hsound.grow ⟨fun _ h => h, fun _ h => h⟩
  unfold buildObject
  dsimp only
  refine Traced.Leaves.bind (buildBlocks_keeps hrec _ _ _ hstart ⟨Built.nil l, rfl, nofun⟩) ?_
  rintro ⟨loc₁, s₁, returned⟩ l₁ ⟨hstep₁, hsingles₁⟩
  dsimp only
  split
  · exact finish_keeps _ _ hbuilding rfl hstep₁.ending
  refine Traced.Leaves.bind (useRule_keeps hrec _ _ hstep₁.sound hsingles₁) ?_
  rintro ⟨rule, loc₂, s₂⟩ l₂ ⟨hstep₂, hsingles₂, hrule⟩
  have hstep := hstep₁.trans hstep₂
  have hobject₂ : s₂.alreadyBuilt object = false :=
    (hstep.kept.alreadyBuilt object (update_self ..)).trans hobject
  refine Traced.Leaves.bind
    (doSingleColon_keeps _ _ hstep.sound hsingles₂.built hsingles₂.newest hobject₂ ?_) ?_
  · intro c hc
    rcases hblock : loc₂.explComBlock with _ | block <;>
      simp only [singleCommands, hblock] at hc
    · obtain ⟨rule', hrule', rfl⟩ := Option.map_eq_some_iff.mp hc
      exact ⟨rfl, hrule rule' (Option.eq_some_of_filter_eq_some hrule')⟩
    · obtain rfl := Option.some.inj hc
      exact hsingles₂.block block hblock
  · rintro ⟨loc₃, s₃⟩ l₃ hending
    exact finish_keeps _ _ hbuilding rfl
      ⟨hstep.sub.trans hending.sub, hending.sound, hstep.kept.trans hending.kept⟩

theorem build_keeps (n : Nat) : Builds mk (build mk n) := by
  induction n with
  | zero => exact fun _ _ _ _ _ _ => Traced.Leaves.fail trivial
  | succ n ih =>
    intro object flags time s l hsound
    unfold build
    split
    · exact Traced.Leaves.fail trivial
    case isFalse hbuilding =>
      split
      · unfold upToDate
        refine Traced.Leaves.bind (R := fun _ l' => l' = l ++ [_])
          (Traced.Leaves.emit fun _ => ⟨trivial, rfl⟩) ?_
        rintro - l' rfl
        exact Traced.Leaves.pure ⟨Step.other hsound nofun,
          List.mem_append_right _ (List.mem_singleton_self _)⟩
      case isFalse hobject =>
        exact buildObject_keeps ih flags time hsound (Bool.eq_false_iff.mpr hbuilding)
          (Bool.eq_false_iff.mpr hobject)

theorem processTree_keeps (n : Nat) (flags : Bool) (targets : List (τ × Nat))
    (hsound : Sound l s) :
    Keeps mk l (processTree mk n flags targets s) (fun s' l' => Step l l' s s') := by
  induction targets generalizing l s with
  | nil => exact Traced.Leaves.pure (Step.rfl hsound)
  | cons target targets ih =>
    obtain ⟨target, time⟩ := target
    refine Traced.Leaves.bind (build_keeps n target flags time s l hsound) ?_
    rintro ⟨status, time, s'⟩ l' ⟨hstep, -⟩
    exact (ih hstep.sound).mono fun s'' l'' h => hstep.trans h

end

end SdkTools.Nmake.Building
