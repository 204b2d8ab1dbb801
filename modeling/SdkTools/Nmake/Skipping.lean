import Mathlib
import SdkTools.Nmake.Scanning

/-!
# Skipped text and the stack of flags

In skipped text the scanner finds the next directive about conditionals, as the
items do. The flags of `ifStack` stand for the frames of the open conditionals.
-/

namespace SdkTools.Nmake

set_option autoImplicit false

variable {env : Env}

theorem items_fuel (env : Env) (k k' : Nat) (colZero : Bool) (text : Text) (hk : text.length ≤ k)
    (hk' : text.length ≤ k') : items env k colZero text = items env k' colZero text := by
  induction k generalizing k' colZero text with
  | zero =>
    obtain rfl : text = [] := List.eq_nil_of_length_eq_zero (Nat.le_zero.mp hk)
    cases k' with
    | zero => rfl
    | succ k' => rfl
  | succ k ih =>
    cases text with
    | nil =>
      cases k' with
      | zero => rfl
      | succ k' => rfl
    | cons c text =>
      rw [List.length_cons] at hk hk'
      obtain ⟨k', rfl⟩ : ∃ j, k' = j + 1 := ⟨k' - 1, by omega⟩
      unfold items
      split
      · cases hread : readInOneLine env text with
        | error e => rfl
        | ok p =>
          obtain ⟨s, rest⟩ := p
          have hlen := readInOneLine_length hread
          simp only
          rw [ih k' true rest (by omega) (by omega)]
      · rw [ih k' (c == '\n') text (by omega) (by omega)]

/-- The items of a text. -/
def itemsOf (env : Env) (colZero : Bool) (text : Text) : List Item :=
  items env text.length colZero text

theorem itemsOf_nil (colZero : Bool) : itemsOf env colZero [] = [] := rfl

theorem itemsOf_char {colZero : Bool} {c : Char} (h : (colZero && c == '!') = false)
    (text : Text) : itemsOf env colZero (c :: text) = .char c :: itemsOf env (c == '\n') text := by
  show items env (text.length + 1) colZero (c :: text) = _
  rw [items, h]
  rfl

/-- The item of a directive line, and the items after it. -/
def directiveItems (env : Env) : Except Err (Text × Text) → List Item
  | .error e => [.bad e]
  | .ok (s, rest) =>
    match getDirType s with
    | .error e => [.bad e]
    | .ok (kind, t) => .directive rest.length kind t :: itemsOf env true rest

theorem directiveItems_bad {s rest : Text} {e : Err} (h : getDirType s = .error e) :
    directiveItems env (.ok (s, rest)) = [.bad e] := by
  simp only [directiveItems, h]

theorem directiveItems_ok {s rest t : Text} {kind : DirType}
    (h : getDirType s = .ok (kind, t)) :
    directiveItems env (.ok (s, rest)) =
      .directive rest.length kind t :: itemsOf env true rest := by
  simp only [directiveItems, h]

theorem itemsOf_directive (text : Text) :
    itemsOf env true ('!' :: text) = directiveItems env (readInOneLine env text) := by
  show items env (text.length + 1) true ('!' :: text) = _
  have hbang : (true && '!' == '!') = true := rfl
  rw [items, if_pos hbang]
  cases hread : readInOneLine env text with
  | error e => rfl
  | ok p =>
    obtain ⟨s, rest⟩ := p
    have hlen := readInOneLine_length hread
    simp only [directiveItems]
    rw [items_fuel env _ _ true rest hlen (Nat.le_refl _)]
    rfl

/-! ## Text that is not selected -/

/-- In text that is not selected the characters are passed over up to the next `!`
in column zero. -/
theorem specRun_toBang {stack : List Frame} (hsel : selected stack = false) (colZero : Bool)
    (text : Text) :
    specRun env stack (itemsOf env colZero text) =
      match toBang colZero text with
      | none => ([], some .eofNoDirective)
      | some rest => specRun env stack (itemsOf env true ('!' :: rest)) := by
  induction text generalizing colZero with
  | nil => simp [itemsOf_nil, specRun, toBang, hsel]
  | cons c text ih =>
    by_cases hbang : (colZero && c == '!') = true
    · obtain ⟨rfl, hc⟩ := Bool.and_eq_true_iff.mp hbang
      obtain rfl := eq_of_beq hc
      rfl
    · have hfalse : (colZero && c == '!') = false := Bool.eq_false_iff.mpr hbang
      have hto : toBang colZero (c :: text) = toBang (c == '\n') text := by
        rw [toBang, if_neg hbang]
      rw [itemsOf_char hfalse, hto, ← ih]
      simp only [specRun, specStep, hsel, Outcome.after, Bool.false_eq_true, if_false,
        List.nil_append]

/-- What the skipping of text comes to. -/
def skipOutcome (env : Env) (stack : List Frame) : Except Err (Text × Text × Bool) → Outcome
  | .error e => ([], some e)
  | .ok (s, rest, _) => specRun env stack (directiveItems env (.ok (s, rest)))

theorem skipToNextDirective_spec (env : Env) {stack : List Frame} (hsel : selected stack = false) (k : Nat)
    (text : Text) (colZero : Bool) (hk : text.length < k) :
    specRun env stack (itemsOf env true text) =
      skipOutcome env stack (skipToNextDirective env k text colZero) ∧
    ∀ s rest colZero', skipToNextDirective env k text colZero = .ok (s, rest, colZero') →
      rest.length < text.length ∧ ∃ kind t, getDirType s = .ok (kind, t) ∧ kind.notIf = false := by
  induction k generalizing text colZero with
  | zero => omega
  | succ k ih =>
    have hlines := skipLines_spec (text.length + 1) text colZero (Nat.lt_succ_self _)
    rw [specRun_toBang hsel]
    unfold skipToNextDirective
    cases hskip : skipLines (text.length + 1) text colZero with
    | none =>
      rw [hskip] at hlines
      rw [← hlines]
      exact ⟨rfl, fun s rest colZero' h => by cases h⟩
    | some p =>
      obtain ⟨text', colZero'⟩ := p
      rw [hskip] at hlines
      have hlen : text'.length < text.length := toBang_length hlines.symm
      rw [← hlines]
      simp only [Option.map_some, itemsOf_directive]
      cases hread : readInOneLine env text' with
      | error e => exact ⟨rfl, fun s rest colZero' h => by cases h⟩
      | ok p =>
        obtain ⟨s, rest⟩ := p
        have hrest := readInOneLine_length hread
        cases hdir : getDirType s with
        | error e =>
          constructor
          · rw [directiveItems_bad hdir]
            simp only [bind, Except.bind, hdir]
            rfl
          · intro s' rest' colZero'' h
            simp only [bind, Except.bind, hdir] at h
            cases h
        | ok d =>
          obtain ⟨kind, t⟩ := d
          cases hkind : kind.notIf with
          | true =>
            obtain ⟨hrun, hok⟩ := ih rest colZero' (by omega)
            constructor
            · rw [directiveItems_ok hdir]
              simp only [specRun, specStep, hkind, hsel, if_true,
                Bool.false_eq_true, if_false, Outcome.after, List.nil_append]
              simp only [bind, Except.bind, hdir, hkind, if_true]
              exact hrun
            · intro s' rest' colZero'' h
              simp only [bind, Except.bind, hdir, hkind, if_true] at h
              obtain ⟨hlen', hd⟩ := hok s' rest' colZero'' h
              exact ⟨by omega, hd⟩
          | false =>
            constructor
            · simp only [bind, Except.bind, hdir, hkind, Bool.false_eq_true, if_false]
              rfl
            · intro s' rest' colZero'' h
              simp only [bind, Except.bind, hdir, hkind, Bool.false_eq_true, if_false] at h
              obtain ⟨rfl, hr⟩ := Prod.mk.inj (Except.ok.inj h)
              obtain ⟨rfl, -⟩ := Prod.mk.inj hr
              exact ⟨by omega, kind, t, hdir, hkind⟩

/-! ## The flags -/

/-- An element of `ifStack` stands for a frame. -/
structure Stands (el : Element) (f : Frame) : Prop where
  cur : el.condition = f.cur
  elseSeen : (!el.ifelse && !el.elseif) = f.elseSeen
  waiting : f.elseSeen = false → (!el.ignore && !el.condition) = f.waiting
  ignored : el.ignore = true → el.condition = false

/-- The stack of elements stands for the stack of frames. -/
abbrev StackStands (els : List Element) (stack : List Frame) : Prop := List.Forall₂ Stands els stack

/-- What `processIfs` does when the frames become `stack`: it goes on in selected
text and skips text that is not selected. -/
def goOn (env : Env) (st : State) (els : List Element) (stack : List Frame) : Except Err State :=
  if selected stack then .ok { st with ifStack := els } else skipFrom env { st with ifStack := els }

/-- `processIfs` against a step of the frames. -/
def Follows (env : Env) (st : State) (r : Result State) (r' : Result (List Frame)) : Prop :=
  match r' with
  | (events, .error e) => r = (events, .error e)
  | (events, .ok stack) => ∃ els, StackStands els stack ∧ r = (events, goOn env st els stack)

theorem evalTop_follows {kind : DirType} {s : Text} {st : State} {top : Element}
    {els : List Element} {stack : List Frame} (hstack : StackStands els stack)
    (hc : top.condition = false) (hi : top.ignore = false)
    (helse : (!top.ifelse && !top.elseif) = false) :
    Follows env st (evalTop env kind s st top els)
      (specBranch env true st.text.length kind s stack) := by
  unfold evalTop specBranch
  cases hv : evalExpr env st.text.length kind s with
  | error e => rfl
  | ok v =>
    cases v with
    | true =>
      refine ⟨{ top with condition := true } :: els, .cons ⟨rfl, helse, ?_, ?_⟩ hstack, rfl⟩
      · intro _
        simp [hi]
      · intro hig
        rw [hi] at hig
        cases hig
    | false =>
      refine ⟨top :: els, .cons ⟨hc, helse, ?_, fun _ => hc⟩ hstack, rfl⟩
      intro _
      simp [hi, hc]

theorem processIfs_if {kind : DirType} (hkind : kind.isIf = true) {s : Text} {st : State}
    {stack : List Frame} (hstack : StackStands st.ifStack stack) :
    Follows env st (processIfs env s kind st)
      (specStep env stack (.directive st.text.length kind s)) := by
  have hstep : specStep env stack (.directive st.text.length kind s) =
      if stack.length = IFSTACKSIZE then ([], .error .tooManyIfs)
      else specBranch env (selected stack) st.text.length kind s stack := by
    cases kind <;> first | rfl | cases hkind
  have hlength := hstack.length_eq
  rw [hstep]
  by_cases hfull : stack.length = IFSTACKSIZE
  · have herror : processIfs env s kind st = ([], .error .tooManyIfs) := by
      cases kind <;> first | exact if_pos (hlength.trans hfull) | cases hkind
    rw [herror, if_pos hfull]
    rfl
  · have hroom : ¬ st.ifStack.length = IFSTACKSIZE := fun h => hfull (hlength.symm.trans h)
    rw [if_neg hfull]
    generalize hels : st.ifStack = els at hstack
    cases hstack with
    | nil =>
      have hprocess : processIfs env s kind st =
          evalTop env kind s st ⟨true, false, false, false⟩ [] := by
        cases kind <;> first | exact (if_neg hroom).trans (by rw [hels]) | cases hkind
      rw [hprocess]
      exact evalTop_follows .nil rfl rfl rfl
    | cons hf hstack =>
      rename_i el f els stack
      have hprocess : processIfs env s kind st =
          if el.condition then evalTop env kind s st ⟨true, false, false, false⟩ (el :: els)
          else ([], skipFrom env
            { st with ifStack := ⟨true, false, true, false⟩ :: el :: els }) := by
        cases kind <;> first | exact (if_neg hroom).trans (by rw [hels]) | cases hkind
      rw [hprocess]
      cases hcur : f.cur with
      | true =>
        have hc : el.condition = true := hf.cur.trans hcur
        simp only [selected, hcur, hc, if_true]
        exact evalTop_follows (.cons hf hstack) rfl rfl rfl
      | false =>
        have hc : el.condition = false := hf.cur.trans hcur
        simp only [selected, hcur, hc, specBranch, Bool.false_eq_true, if_false]
        refine ⟨⟨true, false, true, false⟩ :: el :: els, .cons ⟨rfl, rfl, fun _ => rfl,
          fun _ => rfl⟩ (.cons hf hstack), rfl⟩

theorem processIfs_else {s : Text} {st : State} {stack : List Frame}
    (hstack : StackStands st.ifStack stack) :
    Follows env st (processIfs env s .elseType st)
      (specStep env stack (.directive st.text.length .elseType s)) := by
  obtain ⟨text, colZero, prev, els⟩ := st
  cases hstack with
  | nil => rfl
  | cons hf hstack =>
    rename_i el f els stack
    simp only [processIfs, specStep, DirType.notIf, DirType.isIf, Bool.false_eq_true, if_false,
      hf.elseSeen, reduceCtorEq, if_true]
    cases helse : f.elseSeen with
    | true => rfl
    | false =>
      have hwait := hf.waiting helse
      cases hig : el.ignore with
      | true =>
        rw [hig] at hwait
        have hw : f.waiting = false := hwait.symm
        rw [hw]
        exact ⟨⟨false, el.condition, true, false⟩ :: els, .cons ⟨hf.ignored hig, rfl,
          fun h => by (cases h), fun _ => hf.ignored hig⟩ hstack, rfl⟩
      | false =>
        rw [hig] at hwait
        cases hc : el.condition with
        | true =>
          rw [hc] at hwait
          have hw : f.waiting = false := hwait.symm
          rw [hw]
          exact ⟨⟨false, false, false, false⟩ :: els, .cons ⟨rfl, rfl, fun h => by (cases h),
            fun _ => rfl⟩ hstack, rfl⟩
        | false =>
          rw [hc] at hwait
          have hw : f.waiting = true := hwait.symm
          rw [hw]
          exact ⟨⟨false, true, false, false⟩ :: els, .cons ⟨rfl, rfl, fun h => by (cases h),
            fun h => by (cases h)⟩ hstack, rfl⟩

theorem processIfs_elseIf {kind : DirType} (hkind : kind.isElseIf = true) {s : Text} {st : State}
    {stack : List Frame} (hstack : StackStands st.ifStack stack) :
    Follows env st (processIfs env s kind st)
      (specStep env stack (.directive st.text.length kind s)) := by
  obtain ⟨text, colZero, prev, els⟩ := st
  obtain ⟨h₁, h₂, h₃, h₄⟩ := DirType.of_isElseIf hkind
  cases hstack with
  | nil =>
    cases kind <;> first | rfl | cases hkind
  | cons hf hstack =>
    rename_i el f els stack
    have hprocess : processIfs env s kind ⟨text, colZero, prev, el :: els⟩ =
        if !el.ifelse && !el.elseif then ([], .error .unexpectedElse)
        else if el.ignore then
          ([], skipFrom env ⟨text, colZero, prev,
            { el with ifelse := false, elseif := true } :: els⟩)
        else if el.condition then
          ([], skipFrom env ⟨text, colZero, prev,
            { el with ifelse := false, elseif := true, ignore := true, condition := false } ::
              els⟩)
        else evalTop env kind s ⟨text, colZero, prev, el :: els⟩
          { el with ifelse := false, elseif := true } els := by
      cases kind <;> first | rfl | cases hkind
    simp only [hprocess, specStep, h₁, h₂, h₃, h₄, Bool.false_eq_true, if_false, hf.elseSeen]
    cases helse : f.elseSeen with
    | true => rfl
    | false =>
      have hwait := hf.waiting helse
      simp only [Bool.false_eq_true, if_false]
      cases hig : el.ignore with
      | true =>
        rw [hig] at hwait
        have hw : f.waiting = false := hwait.symm
        simp only [hw, specBranch, Bool.false_eq_true, if_false, if_true]
        exact ⟨⟨false, el.condition, true, true⟩ :: els, .cons ⟨hf.ignored hig, rfl,
          fun _ => rfl, fun _ => hf.ignored hig⟩ hstack, rfl⟩
      | false =>
        rw [hig] at hwait
        cases hc : el.condition with
        | true =>
          rw [hc] at hwait
          have hw : f.waiting = false := hwait.symm
          simp only [hw, specBranch, Bool.false_eq_true, if_false, if_true]
          exact ⟨⟨false, false, true, true⟩ :: els, .cons ⟨rfl, rfl, fun _ => rfl,
            fun _ => rfl⟩ hstack, rfl⟩
        | false =>
          rw [hc] at hwait
          have hw : f.waiting = true := hwait.symm
          simp only [hw, Bool.false_eq_true, if_false]
          exact evalTop_follows hstack rfl rfl rfl

theorem processIfs_endif {s : Text} {st : State} {stack : List Frame}
    (hstack : StackStands st.ifStack stack) :
    Follows env st (processIfs env s .endif st)
      (specStep env stack (.directive st.text.length .endif s)) := by
  obtain ⟨text, colZero, prev, els⟩ := st
  cases hstack with
  | nil => rfl
  | cons hf hstack =>
    cases hstack with
    | nil => exact ⟨[], .nil, rfl⟩
    | cons hg hstack =>
      rename_i outer g els stack
      refine ⟨outer :: els, .cons hg hstack, ?_⟩
      have hsel : selected (g :: stack) = outer.condition := hg.cur.symm
      simp only [processIfs, goOn, hsel]
      by_cases hcur : outer.condition = true
      · rw [if_pos hcur, if_pos hcur]
      · rw [if_neg hcur, if_neg hcur]

theorem processIfs_follows (env : Env) {kind : DirType} (hkind : kind.notIf = false) (s : Text) {st : State}
    {stack : List Frame} (hstack : StackStands st.ifStack stack) :
    Follows env st (processIfs env s kind st)
      (specStep env stack (.directive st.text.length kind s)) := by
  cases kind with
  | ifType | ifdef | ifndef => exact processIfs_if rfl hstack
  | elseType => exact processIfs_else hstack
  | elseIf | elseIfdef | elseIfndef => exact processIfs_elseIf rfl hstack
  | endif => exact processIfs_endif hstack
  | _ => cases hkind

end SdkTools.Nmake
