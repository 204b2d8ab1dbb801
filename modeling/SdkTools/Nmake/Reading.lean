import SdkTools.Nmake.Skipping

/-!
# Reading a whole makefile

The characters, directives and conditions of a reading are those of the items of
the text.
-/

namespace SdkTools.Nmake

set_option autoImplicit false

variable {env : Env}

theorem takeChar_andThen {α : Type} (next : State → Outcome) (r : Result α)
    (f : α → Result (Option Char × State)) :
    takeChar next (r.andThen f) =
      match r with
      | (events, .error e) => (events, some e)
      | (events, .ok a) => Outcome.after events (takeChar next (f a)) := by
  obtain ⟨events, r⟩ := r
  cases r with
  | error e => rfl
  | ok a =>
    cases hf : f a with
    | mk events' r' =>
      cases r' with
      | error e => simp [Result.andThen, hf, takeChar, Outcome.after]
      | ok p =>
        obtain ⟨c, st⟩ := p
        cases c with
        | none => simp [Result.andThen, hf, takeChar, Outcome.after]
        | some c => simp [Result.andThen, hf, takeChar, Outcome.after]

theorem specRun_cons (stack : List Frame) (item : Item) (its : List Item) :
    specRun env stack (item :: its) =
      match specStep env stack item with
      | (events, .error e) => (events, some e)
      | (events, .ok stack) => Outcome.after events (specRun env stack its) := rfl

/-- A state in which the next character of selected text is read. -/
structure AtText (st : State) (stack : List Frame) : Prop where
  noDirective : st.prevDirPtr = none
  stands : StackStands st.ifStack stack
  selects : selected stack = true

/-- A state in which a directive has been handed back. -/
structure AtDirective (st : State) (stack : List Frame) (s : Text) : Prop where
  directive : st.prevDirPtr = some s
  stands : StackStands st.ifStack stack
  isIf : ∃ kind t, getDirType s = .ok (kind, t) ∧ kind.notIf = false

theorem processDirective_bad {s : Text} {e : Err} (h : getDirType s = .error e) (st : State) :
    processDirective env s st = ([], .error e) := by
  simp only [processDirective, h]

theorem processDirective_other {s t : Text} {kind : DirType} (h : getDirType s = .ok (kind, t))
    (hkind : kind.notIf = true) (st : State) :
    processDirective env s st = ([.execute st.text.length kind t],
      if kind = .error then .error .userControlled else .ok { st with colZero := true }) := by
  simp only [processDirective, h, hkind, if_true]

theorem processDirective_ifs {s t : Text} {kind : DirType} (h : getDirType s = .ok (kind, t))
    (hkind : kind.notIf = false) (st : State) :
    processDirective env s st =
      (processIfs env t kind st).andThen fun st => ([], .ok { st with colZero := true }) := by
  simp only [processDirective, h, hkind, Bool.false_eq_true, if_false]

/-- What reading on from smaller states comes to. -/
structure ReadsOn (env : Env) (n k size : Nat) : Prop where
  text : ∀ st stack, AtText st stack → st.text.length ≤ size →
    takeChar (readText env k) (lgetc env n st) = specRun env stack (itemsOf env st.colZero st.text)
  directive : ∀ st stack s, AtDirective st stack s → st.text.length < size →
    takeChar (readText env k) (lgetc env n st) =
      specRun env stack (directiveItems env (.ok (s, st.text)))

/-- A directive is carried out as its item says, and the reading goes on. -/
theorem processDirective_reads {n k size : Nat} (hon : ReadsOn env n k size) {st : State}
    {stack : List Frame} {s : Text} (hprev : st.prevDirPtr = none)
    (hstack : StackStands st.ifStack stack) (hsize : st.text.length ≤ size)
    (hsel : selected stack = true ∨
      ∃ kind t, getDirType s = .ok (kind, t) ∧ kind.notIf = false) :
    takeChar (readText env k) ((processDirective env s st).andThen (lgetc env n)) =
      specRun env stack (directiveItems env (.ok (s, st.text))) := by
  rw [takeChar_andThen]
  cases hdir : getDirType s with
  | error e =>
    rw [processDirective_bad hdir, directiveItems_bad hdir]
    rfl
  | ok d =>
    obtain ⟨kind, t⟩ := d
    rw [directiveItems_ok hdir, specRun_cons]
    cases hkind : kind.notIf with
    | true =>
      have hsel' : selected stack = true := by
        rcases hsel with hsel | ⟨kind', t', hdir', hkind'⟩
        · exact hsel
        · rw [hdir] at hdir'
          obtain ⟨rfl, -⟩ := Prod.mk.inj (Except.ok.inj hdir')
          rw [hkind] at hkind'
          cases hkind'
      rw [processDirective_other hdir hkind]
      simp only [specStep, hkind, hsel', if_true]
      by_cases herr : kind = .error
      · simp only [herr, if_true]
      · simp only [herr, if_false]
        rw [hon.text { st with colZero := true } stack ⟨hprev, hstack, hsel'⟩ hsize]
    | false =>
      have hfollow := processIfs_follows env hkind t hstack
      rw [processDirective_ifs hdir hkind]
      cases hstep : specStep env stack (.directive st.text.length kind t) with
      | mk events r =>
        rw [hstep] at hfollow
        cases r with
        | error e =>
          have hproc : processIfs env t kind st = (events, .error e) := hfollow
          rw [hproc]
          rfl
        | ok stack' =>
          obtain ⟨els, hels, hproc⟩ := hfollow
          rw [hproc]
          by_cases hsel' : selected stack' = true
          · simp only [goOn, hsel', if_true, Result.andThen, List.append_nil]
            rw [hon.text { st with ifStack := els, colZero := true } stack'
              ⟨hprev, hels, hsel'⟩ hsize]
          · have hsel'' : selected stack' = false := Bool.eq_false_iff.mpr hsel'
            obtain ⟨hrun, hok⟩ := skipToNextDirective_spec env hsel''
              (st.text.length + 1) st.text st.colZero (Nat.lt_succ_self _)
            simp only [goOn, hsel'', Bool.false_eq_true, if_false, skipFrom]
            rw [hrun]
            cases hskip : skipToNextDirective env (st.text.length + 1) st.text st.colZero with
            | error e => simp [bind, Except.bind, Result.andThen, skipOutcome, Outcome.after]
            | ok p =>
              obtain ⟨s', rest, colZero'⟩ := p
              obtain ⟨hlen, hdir'⟩ := hok s' rest colZero' hskip
              simp only [bind, Except.bind, Result.andThen, List.append_nil, skipOutcome]
              rw [hon.directive ⟨rest, true, some s', els⟩ stack' s' ⟨rfl, hels, hdir'⟩
                (Nat.lt_of_lt_of_le hlen hsize)]

theorem readsOn (env : Env) (size : Nat) :
    ∀ n k, size + 1 ≤ n → size ≤ k → ReadsOn env n k size := by
  induction size using Nat.strongRecOn with
  | ind size ih =>
    intro n k hn hk
    obtain ⟨n, rfl⟩ : ∃ j, n = j + 1 := ⟨n - 1, by omega⟩
    constructor
    · intro st stack hat hsize
      obtain ⟨text, colZero, prev, els⟩ := st
      obtain ⟨hprev, hstack, hsel⟩ := hat
      obtain rfl : prev = none := hprev
      cases text with
      | nil => simp [lgetc, takeChar, itemsOf_nil, specRun, hsel]
      | cons c text =>
        have hlen : text.length < size := hsize
        by_cases hbang : (colZero && c == '!') = true
        · obtain ⟨rfl, hc⟩ := Bool.and_eq_true_iff.mp hbang
          obtain rfl := eq_of_beq hc
          rw [itemsOf_directive]
          cases hread : readInOneLine env text with
          | error e =>
            simp only [lgetc, hread, hbang, if_true]
            rfl
          | ok p =>
            obtain ⟨s, rest⟩ := p
            have hrest := readInOneLine_length hread
            have hlt : rest.length < size := Nat.lt_of_le_of_lt hrest hlen
            have hon := ih rest.length hlt n k (by omega) (by omega)
            simp only [lgetc, hread, hbang, if_true]
            exact processDirective_reads hon rfl hstack (Nat.le_refl _) (Or.inl hsel)
        · have hfalse : (colZero && c == '!') = false := Bool.eq_false_iff.mpr hbang
          obtain ⟨k, rfl⟩ : ∃ j, k = j + 1 := ⟨k - 1, by omega⟩
          have hon := ih text.length hlen (text.length + 2) k (by omega) (by omega)
          have hnext := hon.text ⟨text, c == '\n', none, els⟩ stack ⟨rfl, hstack, hsel⟩
            (Nat.le_refl _)
          rw [itemsOf_char hfalse, specRun_cons]
          simp only [lgetc, hfalse, Bool.false_eq_true, if_false, takeChar, List.nil_append,
            specStep, hsel, if_true]
          rw [← hnext]
          rfl
    · intro st stack s hat hsize
      obtain ⟨text, colZero, prev, els⟩ := st
      obtain ⟨hprev, hstack, hdir⟩ := hat
      obtain rfl : prev = some s := hprev
      have hlt : text.length < size := hsize
      have hon := ih text.length hlt n k (by omega) (by omega)
      exact processDirective_reads hon rfl hstack (Nat.le_refl _) (Or.inr hdir)

/-- The reading of a makefile is the run of its items. -/
theorem readMakefile_eq (env : Env) (text : Text) :
    readMakefile env text = specRun env [] (itemsOf env true text) := by
  have hon := readsOn env text.length (text.length + 2) text.length (by omega) (Nat.le_refl _)
  exact hon.text ⟨text, true, none, []⟩ [] ⟨rfl, .nil, rfl⟩ (Nat.le_refl _)

end SdkTools.Nmake
