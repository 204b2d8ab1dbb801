import SdkTools.Nmake.Reading

/-!
# Well-nested conditionals and their meaning

A well-nested list of items is a sequence of characters, other directives and
conditionals with their branches; its meaning is what the selected branches
deliver, carry out and evaluate.
-/

namespace SdkTools.Nmake

set_option autoImplicit false

variable {env : Env}

/-- A block of items, selected or not, or the branches after the first one of a
conditional, which wait for their turn or not. -/
inductive Mode where
  | block (sel : Bool)
  | branches (waiting : Bool)

/-- `Means env d mode its events`: at nesting depth `d` the items `its` are
well nested and mean `events`. -/
inductive Means (env : Env) : Nat → Mode → List Item → List Event → Prop where
  | nil {d : Nat} {sel : Bool} : Means env d (.block sel) [] []
  | char {d : Nat} {sel : Bool} {c : Char} {its : List Item} {ev : List Event}
      (h : Means env d (.block sel) its ev) :
      Means env d (.block sel) (.char c :: its) ((if sel then [.deliver c] else []) ++ ev)
  | other {d : Nat} {sel : Bool} {pos : Nat} {kind : DirType} {s : Text} {its : List Item}
      {ev : List Event} (hkind : kind.notIf = true) (h : Means env d (.block sel) its ev) :
      Means env d (.block sel) (.directive pos kind s :: its)
        ((if sel then [.execute pos kind s] else []) ++ ev)
  | cond {d : Nat} {sel v : Bool} {pos : Nat} {kind : DirType} {s : Text}
      {body tail rest : List Item} {ev₁ ev₂ ev₃ : List Event} (hkind : kind.isIf = true)
      (hd : d < IFSTACKSIZE) (hv : sel = true → evalExpr env pos kind s = .ok v)
      (hbody : Means env (d + 1) (.block (sel && v)) body ev₁)
      (htail : Means env (d + 1) (.branches (sel && !v)) tail ev₂)
      (hrest : Means env d (.block sel) rest ev₃) :
      Means env d (.block sel) (.directive pos kind s :: (body ++ (tail ++ rest)))
        ((if sel then [.evaluate pos kind s] else []) ++ (ev₁ ++ (ev₂ ++ ev₃)))
  | endif {d : Nat} {waiting : Bool} {pos : Nat} {s : Text} :
      Means env d (.branches waiting) [.directive pos .endif s] []
  | elseBranch {d : Nat} {waiting : Bool} {pos pos' : Nat} {s s' : Text} {body : List Item}
      {ev : List Event} (hbody : Means env d (.block waiting) body ev) :
      Means env d (.branches waiting)
        (.directive pos .elseType s :: (body ++ [.directive pos' .endif s'])) ev
  | elseIf {d : Nat} {waiting v : Bool} {pos : Nat} {kind : DirType} {s : Text}
      {body tail : List Item} {ev₁ ev₂ : List Event} (hkind : kind.isElseIf = true)
      (hv : waiting = true → evalExpr env pos kind s = .ok v)
      (hbody : Means env d (.block (waiting && v)) body ev₁)
      (htail : Means env d (.branches (waiting && !v)) tail ev₂) :
      Means env d (.branches waiting) (.directive pos kind s :: (body ++ tail))
        ((if waiting then [.evaluate pos kind s] else []) ++ (ev₁ ++ ev₂))

/-- What comes of events and what follows them: an `!ERROR` directive stops. -/
def emit : List Event → Outcome → Outcome
  | [], o => o
  | .execute pos .error s :: _, _ => ([.execute pos .error s], some .userControlled)
  | e :: events, o => Outcome.after [e] (emit events o)

theorem emit_deliver (c : Char) (events : List Event) (o : Outcome) :
    emit (.deliver c :: events) o = Outcome.after [.deliver c] (emit events o) := rfl

theorem emit_evaluate (pos : Nat) (kind : DirType) (s : Text) (events : List Event)
    (o : Outcome) : emit (.evaluate pos kind s :: events) o =
      Outcome.after [.evaluate pos kind s] (emit events o) := rfl

theorem emit_execute {kind : DirType} (h : kind ≠ .error) (pos : Nat) (s : Text)
    (events : List Event) (o : Outcome) : emit (.execute pos kind s :: events) o =
      Outcome.after [.execute pos kind s] (emit events o) := by
  cases kind with
  | error => exact absurd rfl h
  | _ => rfl

theorem emit_append (events events' : List Event) (o : Outcome) :
    emit (events ++ events') o = emit events (emit events' o) := by
  induction events with
  | nil => rfl
  | cons e events ih =>
    cases e with
    | deliver c => rw [List.cons_append, emit_deliver, emit_deliver, ih]
    | evaluate pos kind s => rw [List.cons_append, emit_evaluate, emit_evaluate, ih]
    | execute pos kind s =>
      by_cases h : kind = .error
      · subst h
        rfl
      · rw [List.cons_append, emit_execute h, emit_execute h, ih]

theorem after_nil (o : Outcome) : Outcome.after [] o = o := rfl

/-- The run of the items that have the meaning `events`. -/
def Runs (env : Env) (d : Nat) (its : List Item) (events : List Event) : Mode → Prop
  | .block sel => ∀ stack rest, selected stack = sel → stack.length = d →
      specRun env stack (its ++ rest) = emit events (specRun env stack rest)
  | .branches waiting => ∀ f stack rest, f.waiting = waiting → f.elseSeen = false →
      stack.length + 1 = d →
      specRun env (f :: stack) (its ++ rest) = emit events (specRun env stack rest)

/-- A branch with a condition: what its evaluation comes to and the frame after it. -/
theorem specBranch_eq {eval v : Bool} {pos : Nat} {kind : DirType} {s : Text}
    (hv : eval = true → evalExpr env pos kind s = .ok v) (stack : List Frame) :
    specBranch env eval pos kind s stack =
      (if eval then [.evaluate pos kind s] else [],
        .ok (⟨eval && v, eval && !v, false⟩ :: stack)) := by
  cases eval with
  | true =>
    rw [specBranch, if_pos rfl, hv rfl]
    rfl
  | false => rfl

theorem emit_evaluated (eval : Bool) (pos : Nat) (kind : DirType) (s : Text)
    (events : List Event) (o : Outcome) :
    emit ((if eval then [.evaluate pos kind s] else []) ++ events) o =
      Outcome.after (if eval then [.evaluate pos kind s] else []) (emit events o) := by
  cases eval with
  | true => exact emit_evaluate pos kind s events o
  | false => rfl

theorem Means.runs {d : Nat} {mode : Mode} {its : List Item} {events : List Event}
    (h : Means env d mode its events) : Runs env d its events mode := by
  induction h with
  | nil => exact fun stack rest _ _ => rfl
  | char h ih =>
    rename_i d sel c its ev
    intro stack rest hsel hd
    rw [List.cons_append, specRun_cons]
    simp only [specStep, hsel]
    rw [ih stack rest hsel hd]
    cases sel with
    | true => exact (emit_deliver c ev _).symm
    | false => rfl
  | other hkind h ih =>
    rename_i d sel pos kind s its ev
    intro stack rest hsel hd
    rw [List.cons_append, specRun_cons]
    simp only [specStep, hkind, hsel, if_true]
    cases sel with
    | false => exact ih stack rest hsel hd
    | true =>
      by_cases herr : kind = .error
      · subst herr
        rfl
      · simp only [herr, if_true, if_false]
        rw [ih stack rest hsel hd]
        exact (emit_execute herr pos s ev _).symm
  | cond hkind hd hv hbody htail hrest ihb iht ihr =>
    rename_i d sel v pos kind s body tail rest' ev₁ ev₂ ev₃
    intro stack rest hsel hlen
    have hnot := DirType.notIf_of_isIf hkind
    have hroom : ¬ stack.length = IFSTACKSIZE := by omega
    rw [List.cons_append, specRun_cons]
    simp only [specStep, hnot, hkind, hroom, hsel, if_true, if_false, Bool.false_eq_true]
    rw [specBranch_eq hv]
    simp only [List.append_assoc]
    rw [ihb (⟨sel && v, sel && !v, false⟩ :: stack) _ rfl (by rw [List.length_cons, hlen]),
      iht ⟨sel && v, sel && !v, false⟩ stack _ rfl rfl (by rw [hlen]), ihr stack rest hsel hlen,
      emit_evaluated, emit_append, emit_append]
  | endif => exact fun f stack rest _ _ _ => rfl
  | elseBranch hbody ih =>
    rename_i d waiting pos pos' s s' body ev
    intro f stack rest hw helse hlen
    rw [List.cons_append, specRun_cons]
    simp only [specStep, DirType.notIf, DirType.isIf, helse, hw, Bool.false_eq_true, if_false,
      reduceCtorEq, if_true, after_nil, List.append_assoc]
    rw [ih (⟨waiting, false, true⟩ :: stack) _ rfl (by rw [List.length_cons, hlen])]
    rfl
  | elseIf hkind hv hbody htail ihb iht =>
    rename_i d waiting v pos kind s body tail ev₁ ev₂
    intro f stack rest hw helse hlen
    obtain ⟨h₁, h₂, h₃, h₄⟩ := DirType.of_isElseIf hkind
    rw [List.cons_append, specRun_cons]
    simp only [specStep, h₁, h₂, h₃, h₄, helse, hw, if_false, Bool.false_eq_true]
    rw [specBranch_eq hv]
    simp only [List.append_assoc]
    rw [ihb (⟨waiting && v, waiting && !v, false⟩ :: stack) _ rfl (by rw [List.length_cons, hlen]),
      iht ⟨waiting && v, waiting && !v, false⟩ stack _ rfl rfl hlen, emit_evaluated, emit_append]

/-! ## Nesting -/

/-- The conditionals open after an item, each with whether its `!ELSE` was seen;
the errors of ill-nested directives. -/
def nestStep (opened : List Bool) : Item → Except Err (List Bool)
  | .char _ => .ok opened
  | .bad _ => .ok opened
  | .directive _ kind _ =>
    if kind.notIf then .ok opened
    else if kind.isIf then
      if opened.length = IFSTACKSIZE then .error .tooManyIfs else .ok (false :: opened)
    else
      match opened with
      | [] => .error (if kind = .endif then .unexpectedEndif else .unexpectedElse)
      | elseSeen :: opened =>
        if kind = .endif then .ok opened
        else if elseSeen then .error .unexpectedElse
        else .ok ((kind == .elseType) :: opened)

def nestRun : List Bool → List Item → Except Err (List Bool)
  | opened, [] => .ok opened
  | opened, item :: its => do
    let opened ← nestStep opened item
    nestRun opened its

/-- The directives are well nested and each conditional is closed. -/
def WellNested (its : List Item) : Prop := nestRun [] its = .ok []

/-- Every directive line is a directive of a known type. -/
def AllRead (its : List Item) : Prop := ∀ e, Item.bad e ∉ its

/-- Every condition has a truth value. -/
def HasValues (env : Env) (its : List Item) : Prop :=
  ∀ pos kind s, Item.directive pos kind s ∈ its → (kind.isIf || kind.isElseIf) = true →
    ∃ v, evalExpr env pos kind s = .ok v

/-- A directive that ends a branch. -/
def Item.endsBranch : Item → Bool
  | .directive _ kind _ => kind.isElseIf || kind == .elseType || kind == .endif
  | _ => false

theorem nestRun_cons {opened r : List Bool} {item : Item} {its : List Item}
    (h : nestRun opened (item :: its) = .ok r) :
    ∃ o, nestStep opened item = .ok o ∧ nestRun o its = .ok r := by
  unfold nestRun at h
  cases hstep : nestStep opened item with
  | error e =>
    simp only [hstep, bind, Except.bind] at h
    cases h
  | ok o =>
    simp only [hstep, bind, Except.bind] at h
    exact ⟨o, rfl, h⟩

theorem Item.endsBranch_cases {pos : Nat} {kind : DirType} {s : Text}
    (h : (Item.directive pos kind s).endsBranch = true) :
    kind.isElseIf = true ∨ kind = .elseType ∨ kind = .endif := by
  simpa [Item.endsBranch, or_assoc] using h

/-- An item that can be read, with a truth value if it is a condition. -/
structure GoodItem (env : Env) (item : Item) : Prop where
  read : ∀ e, item ≠ .bad e
  value : ∀ pos kind s, item = .directive pos kind s → (kind.isIf || kind.isElseIf) = true →
    ∃ v, evalExpr env pos kind s = .ok v

/-- A well-nested list splits into a block and what begins with the end of its branch. -/
structure Splits (env : Env) (its : List Item) : Prop where
  block : ∀ opened sel, opened.length ≤ IFSTACKSIZE → nestRun opened its = .ok [] →
    ∃ body rest ev, its = body ++ rest ∧ Means env opened.length (.block sel) body ev ∧
      nestRun opened rest = .ok [] ∧
      (opened = [] ∧ rest = [] ∨ ∃ item rest', rest = item :: rest' ∧ item.endsBranch = true)
  branches : ∀ opened b waiting, opened.length + 1 ≤ IFSTACKSIZE →
    nestRun (b :: opened) its = .ok [] → (∃ item rest', its = item :: rest' ∧ item.endsBranch = true) →
    ∃ tail rest ev, its = tail ++ rest ∧ Means env (opened.length + 1) (.branches waiting) tail ev ∧
      nestRun opened rest = .ok []

/-- The block after an opened conditional ends with the end of a branch. -/
theorem Splits.inBranch {its : List Item} (h : Splits env its) {b : Bool} {opened : List Bool}
    (sel : Bool) (hlen : opened.length + 1 ≤ IFSTACKSIZE)
    (hrun : nestRun (b :: opened) its = .ok []) :
    ∃ body rest ev, its = body ++ rest ∧ Means env (opened.length + 1) (.block sel) body ev ∧
      nestRun (b :: opened) rest = .ok [] ∧
      ∃ item rest', rest = item :: rest' ∧ item.endsBranch = true := by
  obtain ⟨body, rest, ev, hits, hmeans, hrest, hend⟩ := h.block (b :: opened) sel hlen hrun
  refine ⟨body, rest, ev, hits, hmeans, hrest, ?_⟩
  rcases hend with ⟨hnil, -⟩ | hend
  · cases hnil
  · exact hend

theorem splits_block {n : Nat} {item : Item} {its : List Item}
    (ih : ∀ its' : List Item, its'.length ≤ n → (∀ i ∈ its', GoodItem env i) → Splits env its')
    (hlen : its.length ≤ n) (hgood : ∀ i ∈ item :: its, GoodItem env i) (opened : List Bool)
    (sel : Bool) (hd : opened.length ≤ IFSTACKSIZE)
    (hrun : nestRun opened (item :: its) = .ok []) :
    ∃ body rest ev, item :: its = body ++ rest ∧ Means env opened.length (.block sel) body ev ∧
      nestRun opened rest = .ok [] ∧
      (opened = [] ∧ rest = [] ∨ ∃ item rest', rest = item :: rest' ∧ item.endsBranch = true) := by
  have hits := ih its hlen fun i hi => hgood i (List.mem_cons_of_mem item hi)
  obtain ⟨o, hstep, hnext⟩ := nestRun_cons hrun
  cases item with
  | bad e => exact absurd rfl ((hgood _ List.mem_cons_self).read e)
  | char c =>
    obtain rfl : opened = o := Except.ok.inj hstep
    obtain ⟨body, rest, ev, rfl, hmeans, hrest⟩ := hits.block opened sel hd hnext
    exact ⟨.char c :: body, rest, _, rfl, .char hmeans, hrest⟩
  | directive pos kind s =>
    by_cases hnot : kind.notIf = true
    · simp only [nestStep, hnot, if_true] at hstep
      obtain rfl : opened = o := Except.ok.inj hstep
      obtain ⟨body, rest, ev, rfl, hmeans, hrest⟩ := hits.block opened sel hd hnext
      exact ⟨.directive pos kind s :: body, rest, _, rfl, .other hnot hmeans, hrest⟩
    · by_cases hif : kind.isIf = true
      · simp only [nestStep, hnot, hif, if_true, if_false, Bool.false_eq_true] at hstep
        by_cases hfull : opened.length = IFSTACKSIZE
        · rw [if_pos hfull] at hstep
          cases hstep
        · rw [if_neg hfull] at hstep
          obtain rfl : false :: opened = o := Except.ok.inj hstep
          have hroom : opened.length + 1 ≤ IFSTACKSIZE := by omega
          obtain ⟨v, hv⟩ := (hgood _ List.mem_cons_self).value pos kind s rfl (by rw [hif]; rfl)
          obtain ⟨body, rest₁, ev₁, rfl, hbody, hrun₁, hend⟩ := hits.inBranch (sel && v) hroom hnext
          have hlen₁ : rest₁.length ≤ n := by
            rw [List.length_append] at hlen
            omega
          have hgood₁ : ∀ i ∈ rest₁, GoodItem env i := fun i hi =>
            hgood i (List.mem_cons_of_mem _ (List.mem_append_right body hi))
          obtain ⟨tail, rest₂, ev₂, rfl, htail, hrun₂⟩ :=
            (ih rest₁ hlen₁ hgood₁).branches opened false (sel && !v) hroom hrun₁ hend
          have hlen₂ : rest₂.length ≤ n := by
            rw [List.length_append] at hlen₁
            omega
          obtain ⟨more, rest, ev₃, rfl, hmore, hrest⟩ :=
            (ih rest₂ hlen₂ fun i hi => hgood₁ i (List.mem_append_right tail hi)).block opened sel
              hd hrun₂
          refine ⟨.directive pos kind s :: (body ++ (tail ++ more)), rest, _, ?_,
            .cond hif (by omega) (fun _ => hv) hbody htail hmore, hrest⟩
          simp only [List.cons_append, List.append_assoc]
      · refine ⟨[], .directive pos kind s :: its, [], rfl, .nil, hrun, Or.inr ⟨_, its, rfl, ?_⟩⟩
        rcases DirType.cases_kind kind with h | h | h | rfl | rfl
        · exact absurd h hnot
        · exact absurd h hif
        · simp [Item.endsBranch, h]
        · rfl
        · rfl

theorem splits_branches {n : Nat} {item : Item} {its : List Item}
    (ih : ∀ its' : List Item, its'.length ≤ n → (∀ i ∈ its', GoodItem env i) → Splits env its')
    (hlen : its.length ≤ n) (hgood : ∀ i ∈ item :: its, GoodItem env i) (opened : List Bool)
    (b waiting : Bool) (hd : opened.length + 1 ≤ IFSTACKSIZE)
    (hrun : nestRun (b :: opened) (item :: its) = .ok []) (hend : item.endsBranch = true) :
    ∃ tail rest ev, item :: its = tail ++ rest ∧
      Means env (opened.length + 1) (.branches waiting) tail ev ∧
      nestRun opened rest = .ok [] := by
  have hits := ih its hlen fun i hi => hgood i (List.mem_cons_of_mem item hi)
  obtain ⟨o, hstep, hnext⟩ := nestRun_cons hrun
  cases item with
  | bad e => cases hend
  | char c => cases hend
  | directive pos kind s =>
    have hkinds := Item.endsBranch_cases hend
    have hne : kind.notIf = false ∧ kind.isIf = false := by
      rcases hkinds with h | rfl | rfl
      · exact ⟨(DirType.of_isElseIf h).1, (DirType.of_isElseIf h).2.1⟩
      · exact ⟨rfl, rfl⟩
      · exact ⟨rfl, rfl⟩
    simp only [nestStep, hne.1, hne.2, Bool.false_eq_true, if_false] at hstep
    by_cases hendif : kind = .endif
    · subst hendif
      obtain rfl : opened = o := by simpa using hstep
      exact ⟨[.directive pos .endif s], its, [], rfl, .endif, hnext⟩
    · rw [if_neg hendif] at hstep
      cases b with
      | true => cases hstep
      | false =>
        simp only [Bool.false_eq_true, if_false] at hstep
        by_cases helse : kind = .elseType
        · subst helse
          obtain rfl : true :: opened = o := Except.ok.inj hstep
          obtain ⟨body, rest₁, ev, rfl, hbody, hrun₁, item, rest, rfl, hitem⟩ :=
            hits.inBranch waiting hd hnext
          obtain ⟨o', hstep', hrest⟩ := nestRun_cons hrun₁
          -- After the `!ELSE` branch only `!ENDIF` is well nested.
          cases item with
          | bad e => cases hitem
          | char c => cases hitem
          | directive pos' kind' s' =>
            have hlast : kind' = .endif ∧ o' = opened := by
              rcases Item.endsBranch_cases hitem with h | rfl | rfl
              · obtain ⟨h₁, h₂, h₃, -⟩ := DirType.of_isElseIf h
                simp only [nestStep, h₁, h₂, h₃, Bool.false_eq_true, if_false, if_true] at hstep'
                cases hstep'
              · cases hstep'
              · exact ⟨rfl, (Except.ok.inj hstep').symm⟩
            obtain ⟨rfl, rfl⟩ := hlast
            refine ⟨.directive pos .elseType s :: (body ++ [.directive pos' .endif s']), rest, ev,
              ?_, .elseBranch hbody, hrest⟩
            simp only [List.cons_append, List.append_assoc, List.nil_append]
        · have hkind : kind.isElseIf = true := by
            rcases hkinds with h | h | h
            · exact h
            · exact absurd h helse
            · exact absurd h hendif
          have hbeq : (kind == .elseType) = false := beq_false_of_ne helse
          rw [hbeq] at hstep
          obtain rfl : false :: opened = o := Except.ok.inj hstep
          obtain ⟨v, hv⟩ := (hgood _ List.mem_cons_self).value pos kind s rfl
            (by rw [hkind, Bool.or_true])
          obtain ⟨body, rest₁, ev₁, rfl, hbody, hrun₁, hend₁⟩ :=
            hits.inBranch (waiting && v) hd hnext
          have hlen₁ : rest₁.length ≤ n := by
            rw [List.length_append] at hlen
            omega
          obtain ⟨tail, rest, ev₂, rfl, htail, hrest⟩ :=
            (ih rest₁ hlen₁ fun i hi => hgood i (List.mem_cons_of_mem _
              (List.mem_append_right body hi))).branches opened false (waiting && !v) hd hrun₁ hend₁
          refine ⟨.directive pos kind s :: (body ++ tail), rest, _, ?_,
            .elseIf hkind (fun _ => hv) hbody htail, hrest⟩
          simp only [List.cons_append, List.append_assoc]

theorem splits (env : Env) (n : Nat) : ∀ its : List Item, its.length ≤ n →
    (∀ i ∈ its, GoodItem env i) → Splits env its := by
  induction n with
  | zero =>
    intro its hlen hgood
    obtain rfl := List.eq_nil_of_length_eq_zero (Nat.le_zero.mp hlen)
    constructor
    · intro opened sel hd hrun
      obtain rfl : opened = [] := Except.ok.inj hrun
      exact ⟨[], [], [], rfl, .nil, hrun, Or.inl ⟨rfl, rfl⟩⟩
    · rintro opened b waiting hd hrun ⟨item, rest, hits, -⟩
      cases hits
  | succ n ih =>
    intro its hlen hgood
    cases its with
    | nil => exact ih [] (Nat.zero_le n) hgood
    | cons item its =>
      have hlen' : its.length ≤ n := Nat.le_of_succ_le_succ hlen
      constructor
      · intro opened sel hd hrun
        exact splits_block ih hlen' hgood opened sel hd hrun
      · intro opened b waiting hd hrun hits
        obtain ⟨item', rest, heq, hend⟩ := hits
        obtain ⟨rfl, rfl⟩ := List.cons.inj heq
        exact splits_branches ih hlen' hgood opened b waiting hd hrun hend

/-- Every well-nested text has a meaning. -/
theorem exists_means {its : List Item} (hread : AllRead its) (hvalues : HasValues env its)
    (hnest : WellNested its) : ∃ events, Means env 0 (.block true) its events := by
  have hgood : ∀ i ∈ its, GoodItem env i := by
    intro i hi
    constructor
    · intro e he
      exact hread e (he ▸ hi)
    · intro pos kind s he hk
      exact hvalues pos kind s (he ▸ hi) hk
  obtain ⟨body, rest, events, rfl, hmeans, hrest, hend⟩ :=
    (splits env its.length its (Nat.le_refl _) hgood).block [] true (Nat.zero_le _) hnest
  rcases hend with ⟨-, rfl⟩ | ⟨item, rest', rfl, hitem⟩
  · rw [List.append_nil]
    exact ⟨events, hmeans⟩
  · obtain ⟨o, hstep, -⟩ := nestRun_cons hrest
    cases item with
    | bad e => cases hitem
    | char c => cases hitem
    | directive pos kind s =>
      rcases Item.endsBranch_cases hitem with h | rfl | rfl
      · obtain ⟨h₁, h₂, -, -⟩ := DirType.of_isElseIf h
        simp only [nestStep, h₁, h₂, Bool.false_eq_true, if_false] at hstep
        cases hstep
      · cases hstep
      · cases hstep

end SdkTools.Nmake
