import SdkTools.Nmake.Nesting

/-!
# The conditionals of a makefile

A well-nested makefile is read as its meaning says; what is ill nested, skipped
to the end of the text or no directive is reported when the reading comes to it.
-/

namespace SdkTools.Nmake

set_option autoImplicit false

variable {env : Env}

/-- The events of the items `its` and the frames after them, unless the reading
stops before. -/
def stackAfter (env : Env) : List Frame → List Item → Option (List Event × List Frame)
  | stack, [] => some ([], stack)
  | stack, item :: its =>
    match specStep env stack item with
    | (_, .error _) => none
    | (events, .ok stack) => (stackAfter env stack its).map fun p => (events ++ p.1, p.2)

attribute [local simp] stackAfter

theorem specRun_stackAfter {stack stack' : List Frame} {pre : List Item} {events : List Event}
    (h : stackAfter env stack pre = some (events, stack')) (rest : List Item) :
    specRun env stack (pre ++ rest) = Outcome.after events (specRun env stack' rest) := by
  induction pre generalizing stack events with
  | nil =>
    obtain ⟨rfl, rfl⟩ : [] = events ∧ stack = stack' := by simpa using h
    rfl
  | cons item its ih =>
    rw [List.cons_append, specRun_cons]
    unfold stackAfter at h
    cases hstep : specStep env stack item with
    | mk ev r =>
      rw [hstep] at h
      cases r with
      | error e => cases h
      | ok stack₁ =>
        obtain ⟨p, hp, hmk⟩ := Option.map_eq_some_iff.mp h
        obtain ⟨ev', stack₂⟩ := p
        obtain ⟨rfl, rfl⟩ := Prod.mk.inj hmk
        simp only
        rw [ih hp]
        simp only [Outcome.after, List.append_assoc]

/-- The nesting of the items is that of the frames. -/
theorem specBranch_nest {eval : Bool} {pos : Nat} {kind : DirType} {s : Text}
    {stack stack' : List Frame} {events : List Event}
    (h : specBranch env eval pos kind s stack = (events, .ok stack')) :
    stack'.map Frame.elseSeen = false :: stack.map Frame.elseSeen := by
  cases eval with
  | false =>
    obtain rfl := Except.ok.inj (Prod.mk.inj h).2
    rfl
  | true =>
    have hmap := (Prod.mk.inj h).2
    cases hv : evalExpr env pos kind s with
    | error e =>
      rw [hv] at hmap
      cases hmap
    | ok v =>
      rw [hv] at hmap
      obtain rfl := Except.ok.inj hmap
      rfl

theorem specStep_nest {stack stack' : List Frame} {item : Item} {events : List Event}
    (h : specStep env stack item = (events, .ok stack')) :
    nestStep (stack.map Frame.elseSeen) item = .ok (stack'.map Frame.elseSeen) := by
  cases item with
  | bad e => cases h
  | char c =>
    obtain rfl := Except.ok.inj (Prod.mk.inj h).2
    rfl
  | directive pos kind s =>
    rcases DirType.cases_kind kind with hk | hk | hk | rfl | rfl
    · simp only [specStep, hk, if_true] at h
      simp only [nestStep, hk, if_true]
      by_cases hsel : selected stack = true
      · rw [if_pos hsel] at h
        have h₂ := (Prod.mk.inj h).2
        by_cases herr : kind = .error
        · rw [if_pos herr] at h₂
          cases h₂
        · rw [if_neg herr] at h₂
          rw [Except.ok.inj h₂]
      · rw [if_neg hsel] at h
        rw [Except.ok.inj (Prod.mk.inj h).2]
    · have hnot := DirType.notIf_of_isIf hk
      simp only [specStep, hnot, hk, if_true, Bool.false_eq_true, if_false] at h
      simp only [nestStep, hnot, hk, if_true, Bool.false_eq_true, if_false, List.length_map]
      by_cases hfull : stack.length = IFSTACKSIZE
      · rw [if_pos hfull] at h
        cases h
      · rw [if_neg hfull] at h
        rw [if_neg hfull, specBranch_nest h]
    · obtain ⟨h₁, h₂, h₃, h₄⟩ := DirType.of_isElseIf hk
      have hbeq : (kind == .elseType) = false := beq_false_of_ne h₄
      simp only [specStep, h₁, h₂, h₃, h₄, Bool.false_eq_true, if_false] at h
      simp only [nestStep, h₁, h₂, h₃, hbeq, Bool.false_eq_true, if_false]
      cases stack with
      | nil => cases h
      | cons top stack =>
        simp only at h
        by_cases helse : top.elseSeen = true
        · rw [if_pos helse] at h
          cases h
        · rw [if_neg helse] at h
          simp only [List.map_cons, if_neg helse, specBranch_nest h]
    · cases stack with
      | nil => cases h
      | cons top stack =>
        by_cases helse : top.elseSeen = true
        · simp only [specStep, DirType.notIf, DirType.isIf, helse, Bool.false_eq_true, if_false,
            reduceCtorEq, if_true] at h
          cases h
        · simp only [specStep, DirType.notIf, DirType.isIf, helse, Bool.false_eq_true, if_false,
            reduceCtorEq, if_true] at h
          rw [← Except.ok.inj (Prod.mk.inj h).2]
          simp only [nestStep, DirType.notIf, DirType.isIf, List.map_cons, helse,
            Bool.false_eq_true, if_false, reduceCtorEq]
          rfl
    · cases stack with
      | nil => cases h
      | cons top stack =>
        simp only [specStep, DirType.notIf, DirType.isIf, Bool.false_eq_true, if_false,
          if_true] at h
        rw [← Except.ok.inj (Prod.mk.inj h).2]
        rfl

theorem stackAfter_nest {stack stack' : List Frame} {pre : List Item} {events : List Event}
    (h : stackAfter env stack pre = some (events, stack')) :
    nestRun (stack.map Frame.elseSeen) pre = .ok (stack'.map Frame.elseSeen) := by
  induction pre generalizing stack events with
  | nil =>
    obtain ⟨-, rfl⟩ : [] = events ∧ stack = stack' := by simpa using h
    rfl
  | cons item its ih =>
    unfold stackAfter at h
    cases hstep : specStep env stack item with
    | mk ev r =>
      rw [hstep] at h
      cases r with
      | error e => cases h
      | ok stack₁ =>
        obtain ⟨p, hp, hmk⟩ := Option.map_eq_some_iff.mp h
        obtain ⟨ev', stack₂⟩ := p
        obtain ⟨-, rfl⟩ := Prod.mk.inj hmk
        simp only [nestRun, specStep_nest hstep, bind, Except.bind]
        exact ih hp

/-- An ill-nested directive is reported, in selected and in skipped text. -/
theorem specStep_ill {stack : List Frame} {item : Item} {err : Err}
    (h : nestStep (stack.map Frame.elseSeen) item = .error err) :
    specStep env stack item = ([], .error err) := by
  cases item with
  | bad e => cases h
  | char c => cases h
  | directive pos kind s =>
    rcases DirType.cases_kind kind with hk | hk | hk | rfl | rfl
    · simp only [nestStep, hk, if_true] at h
      cases h
    · have hnot := DirType.notIf_of_isIf hk
      simp only [nestStep, hnot, hk, if_true, Bool.false_eq_true, if_false, List.length_map] at h
      simp only [specStep, hnot, hk, if_true, Bool.false_eq_true, if_false]
      by_cases hfull : stack.length = IFSTACKSIZE
      · rw [if_pos hfull] at h
        rw [if_pos hfull, Except.error.inj h]
      · rw [if_neg hfull] at h
        cases h
    · obtain ⟨h₁, h₂, h₃, h₄⟩ := DirType.of_isElseIf hk
      simp only [nestStep, h₁, h₂, h₃, Bool.false_eq_true, if_false] at h
      simp only [specStep, h₁, h₂, h₃, h₄, Bool.false_eq_true, if_false]
      cases stack with
      | nil => rw [← Except.error.inj h]
      | cons top stack =>
        simp only [List.map_cons] at h
        by_cases helse : top.elseSeen = true
        · rw [if_pos helse] at h
          simp only [if_pos helse]
          rw [Except.error.inj h]
        · rw [if_neg helse] at h
          cases h
    · cases stack with
      | nil =>
        obtain rfl : Err.unexpectedElse = err := Except.error.inj h
        rfl
      | cons top stack =>
        simp only [nestStep, DirType.notIf, DirType.isIf, List.map_cons, Bool.false_eq_true,
          if_false, reduceCtorEq] at h
        simp only [specStep, DirType.notIf, DirType.isIf, Bool.false_eq_true, if_false,
          reduceCtorEq, if_true]
        by_cases helse : top.elseSeen = true
        · rw [if_pos helse] at h
          rw [if_pos helse, Except.error.inj h]
        · rw [if_neg helse] at h
          cases h
    · cases stack with
      | nil =>
        obtain rfl : Err.unexpectedEndif = err := Except.error.inj h
        rfl
      | cons top stack => cases h

/-- What the directives of a makefile promise, for the text with the items `its`
and the outcome `o` of its reading. -/
structure DirectivesCorrect (env : Env) (its : List Item) (o : Outcome) : Prop where
  /-- the selected lines are delivered, their directives carried out, and the
  conditions evaluated whose turn comes -/
  wellNested : AllRead its → HasValues env its → WellNested its →
    ∃ events, Means env 0 (.block true) its events ∧ o = emit events ([], none)
  illNested : ∀ pre item rest opened events stack err, its = pre ++ item :: rest →
    nestRun [] pre = .ok opened → nestStep opened item = .error err →
    stackAfter env [] pre = some (events, stack) → o = (events, some err)
  skippedToEnd : ∀ events stack, stackAfter env [] its = some (events, stack) →
    selected stack = false → o = (events, some .eofNoDirective)
  notRead : ∀ pre rest events stack err, its = pre ++ .bad err :: rest →
    stackAfter env [] pre = some (events, stack) → o = (events, some err)

/-- Every makefile, with every assignment of values to its conditions, is read as
its directives say. -/
theorem makefile_directives_correct (env : Env) (text : Text) :
    DirectivesCorrect env (itemsOf env true text) (readMakefile env text) := by
  rw [readMakefile_eq]
  constructor
  · intro hread hvalues hnest
    obtain ⟨events, hmeans⟩ := exists_means hread hvalues hnest
    refine ⟨events, hmeans, ?_⟩
    have hrun := hmeans.runs [] [] rfl rfl
    rwa [List.append_nil] at hrun
  · intro pre item rest opened events stack err hits hopened hill hpre
    have hnest : nestRun [] pre = .ok (stack.map Frame.elseSeen) := stackAfter_nest hpre
    obtain rfl : opened = stack.map Frame.elseSeen := Except.ok.inj (hopened.symm.trans hnest)
    rw [hits, specRun_stackAfter hpre, specRun_cons, specStep_ill hill]
    simp only [Outcome.after, List.append_nil]
  · intro events stack hits hsel
    have hrun := specRun_stackAfter hits []
    rw [List.append_nil] at hrun
    rw [hrun]
    simp [specRun, hsel, Outcome.after]
  · intro pre rest events stack err hits hpre
    rw [hits, specRun_stackAfter hpre, specRun_cons]
    simp only [specStep, Outcome.after, List.append_nil]

/-- A directive of an unknown type is reported although it stands in skipped text. -/
theorem skipped_unknown_directive :
    readMakefile ⟨fun _ _ s => some (s != ['0']), fun _ s => some s⟩
      "!IF 0\n!FOO\n!ENDIF\n".toList =
        ([.evaluate 12 .ifType ['0']], some .badDirective) := by
  rfl

end SdkTools.Nmake
