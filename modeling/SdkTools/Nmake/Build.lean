import SdkTools.Lib.Traced
import Mathlib.Logic.Function.Basic

/-!
# Building targets

`build` and `useRule` without batch rules and without `/T`, `/Q` and `/N`. What the files,
the clock and the commands do is the business of a `Makefile`; a time of 0 is that of a
file which does not exist.
-/

namespace SdkTools.Nmake.Building

open Lib Function

set_option autoImplicit false

/-- The description blocks and rules of a makefile, and the world outside. -/
structure Makefile (τ β ρ ω : Type) where
  fOptionK : Bool
  fRebuildOnTie : Bool
  inMakefile : τ → Bool
  buildList : τ → List β
  /-- `F2_FORCE_BUILD` in the flags of a target of the makefile -/
  forced : τ → Bool
  /-- `F2_FORCE_BUILD` in the flags of a block -/
  blockForced : β → Bool
  /-- `F2_DOUBLECOLON` -/
  doubleColon : β → Bool
  hasDependents : β → Bool
  buildCommands : β → Bool
  /-- the names of the dependents and the times of those that wildcards have found -/
  createDepList : ω → β → τ → List (τ × Nat)
  /-- the rule that applies to a target, with the dependent that was found for it -/
  findRule : ω → τ → Option (ρ × τ × Nat)
  ruleCommands : ρ → Bool
  fileTime : ω → τ → Nat
  /-- the exit code of the commands that have been carried out -/
  doCommands : ω → β ⊕ ρ → τ → Int × ω
  curTime : ω → Nat
  curTime_pos : ∀ w, 0 < curTime w

/-- The flags and times of the objects, and the times of the command blocks. -/
structure State (τ β ω : Type) where
  /-- `F3_BUILDING_THIS_ONE` -/
  building : τ → Bool
  /-- `F3_ALREADY_BUILT` -/
  alreadyBuilt : τ → Bool
  /-- `F3_ERROR_IN_CHILD` -/
  errorInChild : τ → Bool
  /-- `F3_OUT_OF_DATE` -/
  outOfDate : τ → Bool
  dateTime : τ → Nat
  blockTime : β → Nat
  world : ω

/-- What is known when it is decided whether the commands of a block or of a rule are
carried out. -/
structure Decision (τ β ρ : Type) where
  commands : β ⊕ ρ
  target : τ
  /-- the dependents that have been built for them, with the status and the time that
  their builds have returned -/
  dependents : List (τ × Int × Nat)
  /-- `F2_FORCE_BUILD` in the flags of the target -/
  forced : Bool
  /-- the commands may be carried out as far as `status` and `F3_ERROR_IN_CHILD` go -/
  mayRun : Bool
  targTime : Nat
  depTime : Nat
  /-- the block has no time yet -/
  fresh : Bool
  /-- `blockTime` is the time of this block -/
  recorded : Bool
  run : Bool

inductive Event (τ β ρ : Type) where
  /-- the dependents of a block, or of a rule, for a target -/
  | listed (commands : β ⊕ ρ) (target : τ) (names : List τ)
  | returned (target : τ) (status : Int) (time : Nat)
  | decided (d : Decision τ β ρ)

inductive Stop where
  | CYCLE_IN_TREE
  | TOO_MANY_RULES
  | CANT_MAKE_TARGET
  /-- a command has failed without `/K` -/
  | commandFailed
  | fuel

/-- The local variables of `build`; `built` says which dependents have been built, and what
their builds have returned: those of a double-colon block, or those of all single-colon
blocks of the target. -/
structure Locals (τ β : Type) where
  status : Int
  targTime : Nat
  newTargTime : Nat
  depTime : Nat
  maxDepTime : Nat
  explComBlock : Option β
  blockTime : Option β
  starList : Bool
  built : List (τ × Int × Nat)

section

variable {τ β ρ ω : Type} [DecidableEq τ] [DecidableEq β]

abbrev Trace (τ β ρ α : Type) := Traced (Event τ β ρ) Stop α

/-- What a build returns: the status, the time of the target and the state after it. -/
abbrev Builder (τ β ρ ω : Type) :=
  τ → Bool → Nat → State τ β ω → Trace τ β ρ (Int × Nat × State τ β ω)

variable (mk : Makefile τ β ρ ω)

/-- A command that fails ends everything, unless there is `/K`. -/
def carryOut (commands : β ⊕ ρ) (target : τ) (s : State τ β ω) :
    Trace τ β ρ (Int × State τ β ω) :=
  let r := mk.doCommands s.world commands target
  if r.1 ≠ 0 && !mk.fOptionK then Traced.fail .commandFailed
  else pure (r.1, { s with world := r.2 })

/-- Under `/K` the target remembers that the build of a dependent has failed. -/
def noteFailure (object : τ) (rc : Int) (s : State τ β ω) : State τ β ω :=
  if mk.fOptionK && rc ≠ 0 then { s with errorInChild := update s.errorInChild object true } else s

/-- The time of the target is read when there is none yet. -/
def noteTime (object : τ) (wanted : Bool) (found : Nat) (s : State τ β ω) : State τ β ω :=
  if wanted then { s with dateTime := update s.dateTime object found } else s

/-- The loop over the dependents of a block. -/
def buildDeps (rec : Builder τ β ρ ω) (object : τ) (flags doubleColon : Bool) :
    List (τ × Nat) → Locals τ β → State τ β ω → Trace τ β ρ (Locals τ β × State τ β ω)
  | [], loc, s => pure (loc, s)
  | (name, depTime) :: deps, loc, s => do
    let (rc, tempTime, s) ← rec name flags depTime s
    let found := mk.fileTime s.world object
    let wanted := loc.targTime = 0 && !doubleColon && found ≠ 0
    let s := noteTime object wanted found (noteFailure mk object rc s)
    buildDeps rec object flags doubleColon deps
      { loc with
        status := loc.status + rc
        targTime := if wanted then found else loc.targTime
        depTime := max loc.depTime tempTime
        starList := true
        built := loc.built ++ [(name, rc, tempTime)] } s

/-- `targTime == time` counts as older under `/B`. -/
def tie (targTime time : Nat) : Bool := mk.fRebuildOnTie && targTime == time

/-- The status and `F3_ERROR_IN_CHILD` let commands be carried out. -/
def mayRun (object : τ) (status : Int) (s : State τ β ω) : Bool :=
  mk.fOptionK && !s.errorInChild object || status == 0

/-- The commands of a double-colon block. -/
def doDoubleColon (object : τ) (force : Bool) (block : β) (loc : Locals τ β) (s : State τ β ω) :
    Trace τ β ρ (Locals τ β × State τ β ω) :=
  if !mk.buildCommands block then pure (loc, s) else do
  let may := mayRun mk object loc.status s
  let run := may && loc.targTime < loc.depTime || tie mk loc.targTime loc.depTime ||
    loc.targTime == 0 && loc.depTime == 0 || !mk.hasDependents block
  Traced.emit (.decided ⟨.inl block, object, loc.built, force, may, loc.targTime,
    loc.depTime, s.blockTime block == 0, true, run⟩)
  if run then
    let (rc, s) ← carryOut mk (.inl block) object s
    let found := mk.fileTime s.world object
    let newTargTime := if found ≠ 0 then found
      else if loc.maxDepTime ≠ 0 then loc.maxDepTime else mk.curTime s.world
    pure ({ loc with status := loc.status + rc, newTargTime := newTargTime, starList := false },
      { s with blockTime := update s.blockTime block newTargTime })
  else pure (loc, s)

/-- The loop over the blocks of a target. The last component says that it has returned, at
a double-colon block. -/
def buildBlocks (rec : Builder τ β ρ ω) (object : τ) (force : Bool) :
    List β → Locals τ β → State τ β ω → Trace τ β ρ (Locals τ β × State τ β ω × Bool)
  | [], loc, s => pure (loc, s, false)
  | block :: blocks, loc, s =>
    if s.blockTime block ≠ 0 then
      buildBlocks rec object force blocks
        { loc with targTime := max loc.targTime (s.blockTime block) } s
    else do
      let double := mk.doubleColon block
      let deps := mk.createDepList s.world block object
      Traced.emit (.listed (.inl block) object (deps.map Prod.fst))
      let single := loc.built
      let (loc, s) ← buildDeps mk rec object (mk.blockForced block) double deps
        { loc with
          blockTime := some block
          depTime := 0
          built := if double then [] else loc.built } s
      if double then
        let (loc, s) ← doDoubleColon mk object force block loc s
        let loc := { loc with built := single }
        if blocks.isEmpty then pure (loc, s, true) else buildBlocks rec object force blocks loc s
      else if mk.buildCommands block && loc.explComBlock.isSome then
        Traced.fail .TOO_MANY_RULES
      else
        buildBlocks rec object force blocks
          { loc with
            explComBlock := if mk.buildCommands block then some block else loc.explComBlock
            maxDepTime := max loc.maxDepTime loc.depTime } s

/-- The dependent that an inference rule adds. -/
def useRule (rec : Builder τ β ρ ω) (object : τ) (force : Bool) (targTime : Nat) (loc : Locals τ β)
    (s : State τ β ω) : Trace τ β ρ (Option ρ × Locals τ β × State τ β ω) :=
  match mk.findRule s.world object with
  | none => pure (none, loc, s)
  | some (rule, name, time) => do
    Traced.emit (.listed (.inr rule) object [name])
    let (rc, tempTime, s) ← rec name force time s
    pure (some rule, { loc with
      status := loc.status + rc
      maxDepTime := max loc.maxDepTime tempTime
      starList := loc.starList || force || targTime < tempTime || tie mk targTime tempTime
      built := loc.built ++ [(name, rc, tempTime)] }, s)

/-- The time of the target before its single-colon commands. -/
def targetTime (object : τ) (time : Nat) (s : State τ β ω) : Nat :=
  if time ≠ 0 then time
  else if s.dateTime object ≠ 0 then s.dateTime object else mk.fileTime s.world object

/-- The commands of the single-colon block, or of the rule. -/
def singleCommands (loc : Locals τ β) (rule : Option ρ) : Option (β ⊕ ρ) :=
  match loc.explComBlock with
  | some block => some (.inl block)
  | none => (rule.filter mk.ruleCommands).map .inr

/-- The commands have no time yet. -/
def fresh (s : State τ β ω) : β ⊕ ρ → Bool
  | .inl block => s.blockTime block == 0
  | .inr _ => true

/-- The time that is set is that of these commands. -/
def recorded (loc : Locals τ β) : β ⊕ ρ → Bool
  | .inl block => loc.blockTime == some block
  | .inr _ => true

/-- The block whose time is set after these commands. -/
def setBlockTime (loc : Locals τ β) (time : Nat) (blockTime : β → Nat) : β ⊕ ρ → β → Nat
  | .inl _ => match loc.blockTime with
    | some last => update blockTime last time
    | none => blockTime
  | .inr _ => blockTime

/-- The end of a build without commands. -/
def noCommands (inMakefile : Bool) (targTime : Nat) (loc : Locals τ β)
    (s : State τ β ω) : Trace τ β ρ (Locals τ β × State τ β ω) :=
  if !inMakefile && targTime == 0 && !mk.fOptionK then Traced.fail .CANT_MAKE_TARGET
  else
    pure ({ loc with
      status := if !inMakefile && targTime == 0 then 1 else loc.status
      newTargTime := if loc.starList then loc.maxDepTime else mk.curTime s.world + 2 }, s)

/-- What a target with single-colon blocks, or without blocks, comes to in the end. -/
def doSingleColon (object : τ) (force : Bool) (targTime : Nat) (commands : Option (β ⊕ ρ))
    (loc : Locals τ β) (s : State τ β ω) : Trace τ β ρ (Locals τ β × State τ β ω) :=
  let may := mayRun mk object loc.status s
  let run := may && (targTime < loc.maxDepTime || tie mk targTime loc.maxDepTime ||
    targTime == 0 && loc.maxDepTime == 0 || force)
  match commands with
  | some commands => do
    Traced.emit (.decided ⟨commands, object, loc.built, force, may, targTime,
      loc.maxDepTime, fresh s commands, recorded loc commands, run⟩)
    if run then
      let (rc, s) ← carryOut mk commands object s
      let newTargTime := mk.curTime s.world + 2
      pure ({ loc with status := loc.status + rc, newTargTime := newTargTime },
        { s with blockTime := setBlockTime loc newTargTime s.blockTime commands })
    else pure (loc, s)
  | none =>
    if run then noCommands mk (mk.inMakefile object) targTime loc s else pure (loc, s)

/-- The end of a build. -/
def finish (object : τ) (status : Int) (time : Nat) (s : State τ β ω) :
    Trace τ β ρ (Int × Nat × State τ β ω) := do
  Traced.emit (.returned object status time)
  pure (status, time, { s with
    building := update s.building object false
    alreadyBuilt := update s.alreadyBuilt object true
    outOfDate := update s.outOfDate object (decide (status > 0))
    dateTime := update s.dateTime object time })

/-- The flags of an object that is not in the makefile are those of its parent. -/
def forceBuild (object : τ) (flags : Bool) : Bool :=
  if mk.inMakefile object then mk.forced object else flags

/-- The time of a target before its double-colon blocks. -/
def firstTime (object : τ) (s : State τ β ω) : Nat :=
  match mk.buildList object with
  | block :: _ => if mk.doubleColon block then mk.fileTime s.world object else 0
  | [] => 0

/-- The body of `build` for an object that is not being built and has not been built. -/
def buildObject (rec : Builder τ β ρ ω) (object : τ) (flags : Bool) (time : Nat)
    (s : State τ β ω) : Trace τ β ρ (Int × Nat × State τ β ω) := do
  let force := forceBuild mk object flags
  let s := { s with building := update s.building object true }
  let (loc, s, returned) ← buildBlocks mk rec object force (mk.buildList object)
    ⟨0, firstTime mk object s, 0, 0, 0, none, none, false, []⟩ s
  if returned then finish object loc.status (max loc.newTargTime loc.targTime) s
  else do
    let targTime := targetTime mk object time s
    let (rule, loc, s) ← useRule mk rec object force targTime loc s
    let (loc, s) ← doSingleColon mk object force targTime (singleCommands mk loc rule) loc s
    finish object loc.status (max loc.newTargTime targTime) s

/-- What is reported for a target that has been built. -/
def upToDate (object : τ) (s : State τ β ω) : Trace τ β ρ (Int × Nat × State τ β ω) := do
  let status := if s.outOfDate object then 1 else 0
  Traced.emit (.returned object status (s.dateTime object))
  pure (status, s.dateTime object, s)

def build : Nat → Builder τ β ρ ω
  | 0, _, _, _, _ => Traced.fail .fuel
  | n + 1, object, flags, time, s =>
    if s.building object then Traced.fail .CYCLE_IN_TREE
    else if s.alreadyBuilt object then upToDate object s
    else buildObject mk (build n) object flags time s

/-- The targets of the command line, their wildcards expanded, one after the other. -/
def processTree (fuel : Nat) (flags : Bool) :
    List (τ × Nat) → State τ β ω → Trace τ β ρ (State τ β ω)
  | [], s => pure s
  | (target, time) :: targets, s => do
    let (_, _, s) ← build mk fuel target flags time s
    processTree fuel flags targets s

/-- The state before the first target. -/
def State.initial (w : ω) : State τ β ω where
  building _ := false
  alreadyBuilt _ := false
  errorInChild _ := false
  outOfDate _ := false
  dateTime _ := 0
  blockTime _ := 0
  world := w

end

end SdkTools.Nmake.Building
