import SdkTools.Lib.Traced

/-!
# Conditionals of the resource compiler's preprocessor

The text is a list of logical lines: strings, character constants and comments have
been recognised, and a line whose first character is a `#` is a directive. What a
constant expression comes to, which names are defined and what the other directives
do is the business of `Source`.
-/

namespace SdkTools.Rc.Conditionals

open Lib

set_option autoImplicit false

/-- What the lines consist of, and what the rest of the preprocessor does with it. -/
structure Source where
  Expr : Type
  Name : Type
  Command : Type
  Text : Type
  State : Type
  /-- The value of the expression, or the number of a fatal error. -/
  do_constexpr : State → Expr → Except Nat Int
  get_defined : State → Name → Bool
  /-- `#define`, `#undef`, `#line`, `#include`, `#pragma`, `#error` and `#ident`. -/
  execute : State → Command → Except Nat State

variable {S : Source}

/-- The directives that open a conditional; `junk` says that something other than white
space follows on the line, and `none` is a line without an identifier. -/
inductive Opening (S : Source) where
  | P0_IF (e : S.Expr) (junk : Bool)
  | P0_IFDEF (name : Option S.Name) (junk : Bool)
  | P0_IFNDEF (name : Option S.Name) (junk : Bool)

inductive Directive (S : Source) where
  | opening (o : Opening S)
  | P0_ELIF (e : S.Expr) (junk : Bool)
  | P0_ELSE (junk : Bool)
  | P0_ENDIF (junk : Bool)
  | command (c : S.Command)
  | P0_NOTOKEN

inductive Line (S : Source) where
  | text (t : S.Text)
  | directive (d : Directive S)

inductive Event (S : Source) where
  | deliver (t : S.Text)
  | evaluate (e : S.Expr)
  | look_up (name : S.Name)
  | execute (c : S.Command)
  | warning (number : Nat) (cmd : String)

abbrev Prep (S : Source) := Traced (Event S) Nat

def IFSTACK_SIZE : Nat := 32

def GOT_IF : Nat := 1

/-- `Prep_ifstack` is one less than the length of `ifstack`. -/
structure Prepro (S : Source) where
  macros : S.State
  ifstack : List Nat

def incr_ifstack (st : Prepro S) : Prep S (Prepro S) :=
  if st.ifstack.length < IFSTACK_SIZE then
    pure { st with ifstack := GOT_IF :: st.ifstack }
  else
    Traced.fail 1052

def chk_newline (cmd : String) (junk : Bool) : Prep S Unit :=
  if junk then Traced.emit (.warning 4067 cmd) else pure ()

/-- The next directive, and the lines after it. At the end of the text `handle_eos` stops. -/
def next_control : List (Line S) → Prep S (Directive S × List (Line S))
  | [] => Traced.fail 1004
  | .text _ :: ls => next_control ls
  | .directive d :: ls => pure (d, ls)

attribute [local simp] next_control

theorem next_control_length {ls rest : List (Line S)} {d : Directive S}
    (h : (next_control ls).Returns (d, rest)) : rest.length < ls.length := by
  induction ls with
  | nil => exact nomatch h
  | cons l ls ih =>
    cases l with
    | text t =>
      have h' : (next_control ls).Returns (d, rest) := by simpa using h
      exact Nat.lt_succ_of_lt (ih h')
    | directive d' =>
      obtain ⟨-, rfl⟩ := Prod.mk.inj (Traced.returns_pure.mp h)
      exact Nat.lt_succ_self _

inductive Key where
  | ELSE_OR_ENDIF
  | ENDIF_ONLY

/-- What `skipto` found; the condition of an `#elif` has not been read yet. -/
inductive Got (S : Source) where
  | GOT_ELIF (e : S.Expr) (junk : Bool)
  | GOT_ELSE
  | GOT_ENDIF

def skipto (key : Key) (level : Nat) (ls : List (Line S)) : Prep S (Got S × List (Line S)) :=
  (next_control ls).attach >>= fun ⟨(d, rest), _⟩ =>
    match d with
    | .opening _ => skipto key (level + 1) rest
    | .P0_ELSE junk =>
      if level ≠ 0 then skipto key level rest
      else
        match key with
        | .ENDIF_ONLY => Traced.fail 1022
        | .ELSE_OR_ENDIF => do
          chk_newline "#else" junk
          pure (.GOT_ELSE, rest)
    | .P0_ELIF e junk =>
      if level ≠ 0 then skipto key level rest
      else
        match key with
        | .ENDIF_ONLY => Traced.fail 1022
        | .ELSE_OR_ENDIF => pure (.GOT_ELIF e junk, rest)
    | .P0_ENDIF junk =>
      if level = 0 then do
        chk_newline "#endif" junk
        pure (.GOT_ENDIF, rest)
      else skipto key (level - 1) rest
    | .command _ => skipto key level rest
    | .P0_NOTOKEN => skipto key level rest
termination_by ls.length
decreasing_by all_goals exact next_control_length ‹_›

/-- What the line that opens a conditional, or an `#elif` that is due, comes to. -/
def Opening.eval (o : Opening S) (macros : S.State) : Prep S Bool :=
  match o with
  | .P0_IF e junk => do
    Traced.emit (.evaluate e)
    let eval ← Traced.lift (S.do_constexpr macros e)
    chk_newline "#if/#elif" junk
    pure (eval != 0)
  | .P0_IFDEF none _ => Traced.fail 1016
  | .P0_IFDEF (some name) junk => do
    Traced.emit (.look_up name)
    chk_newline "#ifdef" junk
    pure (S.get_defined macros name)
  | .P0_IFNDEF none _ => Traced.fail 1016
  | .P0_IFNDEF (some name) junk => do
    Traced.emit (.look_up name)
    chk_newline "#ifndef" junk
    pure (!S.get_defined macros name)

/-- What `skipto` does when `next_control` has found `d` with `ls` after it. -/
def found (key : Key) (level : Nat) (d : Directive S) (ls : List (Line S)) :
    Prep S (Got S × List (Line S)) :=
  match d with
  | .opening _ => skipto key (level + 1) ls
  | .P0_ELSE junk =>
    if level ≠ 0 then skipto key level ls
    else
      match key with
      | .ENDIF_ONLY => Traced.fail 1022
      | .ELSE_OR_ENDIF => chk_newline "#else" junk >>= fun _ => pure (.GOT_ELSE, ls)
  | .P0_ELIF e junk =>
    if level ≠ 0 then skipto key level ls
    else
      match key with
      | .ENDIF_ONLY => Traced.fail 1022
      | .ELSE_OR_ENDIF => pure (.GOT_ELIF e junk, ls)
  | .P0_ENDIF junk =>
    if level = 0 then chk_newline "#endif" junk >>= fun _ => pure (.GOT_ENDIF, ls)
    else skipto key (level - 1) ls
  | .command _ => skipto key level ls
  | .P0_NOTOKEN => skipto key level ls

theorem skipto_eq (key : Key) (level : Nat) (ls : List (Line S)) :
    skipto key level ls = next_control ls >>= fun r => found key level r.1 r.2 := by
  rw [skipto]
  apply Traced.bind_attached
  rintro ⟨d, rest⟩ h
  cases d <;> rfl

@[simp] theorem skipto_nil (key : Key) (level : Nat) :
    skipto key level ([] : List (Line S)) = Traced.fail 1004 := by
  rw [skipto_eq, next_control, Traced.fail_bind]

@[simp] theorem skipto_text (key : Key) (level : Nat) (t : S.Text) (ls : List (Line S)) :
    skipto key level (.text t :: ls) = skipto key level ls := by
  rw [skipto_eq, next_control, ← skipto_eq]

theorem skipto_directive (key : Key) (level : Nat) (d : Directive S) (ls : List (Line S)) :
    skipto key level (.directive d :: ls) = found key level d ls := by
  rw [skipto_eq, next_control, pure_bind]

/-- The level after a directive that `skipto` passes over. -/
def Directive.levelAfter (level : Nat) : Directive S → Nat
  | .opening _ => level + 1
  | .P0_ENDIF _ => level - 1
  | _ => level

/-- The directives at which `skipto` returns at its own level, and what it has got. -/
inductive Ends : Key → Directive S → Got S → Prop where
  | elif (e : S.Expr) (junk : Bool) : Ends .ELSE_OR_ENDIF (.P0_ELIF e junk) (.GOT_ELIF e junk)
  | else_ (junk : Bool) : Ends .ELSE_OR_ENDIF (.P0_ELSE junk) .GOT_ELSE
  | endif (key : Key) (junk : Bool) : Ends key (.P0_ENDIF junk) .GOT_ENDIF

theorem found_returns {key : Key} {level : Nat} {d : Directive S} {ls rest : List (Line S)}
    {got : Got S} (h : (found key level d ls).Returns (got, rest)) :
    ((skipto key (d.levelAfter level) ls).Returns (got, rest) ∧
        ∀ junk, d = .P0_ENDIF junk → level ≠ 0) ∨
      level = 0 ∧ rest = ls ∧ Ends key d got := by
  cases d with
  | opening o => exact .inl ⟨h, nofun⟩
  | command c => exact .inl ⟨h, nofun⟩
  | P0_NOTOKEN => exact .inl ⟨h, nofun⟩
  | P0_ELIF e junk =>
    simp only [found] at h
    split at h
    · exact .inl ⟨h, nofun⟩
    · rename_i hlevel
      cases key with
      | ENDIF_ONLY => exact absurd h Traced.not_returns_fail
      | ELSE_OR_ENDIF =>
        obtain ⟨rfl, rfl⟩ := Prod.mk.inj (Traced.returns_pure.mp h)
        exact .inr ⟨Decidable.not_not.mp hlevel, rfl, .elif e junk⟩
  | P0_ELSE junk =>
    simp only [found] at h
    split at h
    · exact .inl ⟨h, nofun⟩
    · rename_i hlevel
      cases key with
      | ENDIF_ONLY => exact absurd h Traced.not_returns_fail
      | ELSE_OR_ENDIF =>
        obtain ⟨-, -, h⟩ := Traced.returns_bind.mp h
        obtain ⟨rfl, rfl⟩ := Prod.mk.inj (Traced.returns_pure.mp h)
        exact .inr ⟨Decidable.not_not.mp hlevel, rfl, .else_ junk⟩
  | P0_ENDIF junk =>
    simp only [found] at h
    split at h
    · obtain ⟨-, -, h⟩ := Traced.returns_bind.mp h
      obtain ⟨rfl, rfl⟩ := Prod.mk.inj (Traced.returns_pure.mp h)
      exact .inr ⟨‹_›, rfl, .endif key junk⟩
    · exact .inl ⟨h, fun _ _ => ‹_›⟩

/-- What every directive that is passed over hands back, and the last one has, holds where
`skipto` starts. -/
theorem skipto_induction {key : Key} {got : Got S} {rest : List (Line S)}
    {P : Nat → List (Line S) → Prop}
    (again : ∀ {level : Nat} {d : Directive S} {ls ls' : List (Line S)},
      (next_control ls).Returns (d, ls') → (∀ junk, d = .P0_ENDIF junk → level ≠ 0) →
        P (d.levelAfter level) ls' → P level ls)
    (stop : ∀ {d : Directive S} {ls : List (Line S)},
      (next_control ls).Returns (d, rest) → Ends key d got → P 0 ls)
    {level : Nat} {ls : List (Line S)} (h : (skipto key level ls).Returns (got, rest)) :
    P level ls := by
  induction hn : ls.length using Nat.strongRecOn generalizing ls level with
  | _ n ih =>
    subst hn
    rw [skipto_eq, Traced.returns_bind] at h
    obtain ⟨⟨d, ls'⟩, hnext, h⟩ := h
    rcases found_returns h with ⟨h, hlevel⟩ | ⟨rfl, rfl, hends⟩
    · exact again hnext hlevel (ih _ (next_control_length hnext) h rfl)
    · exact stop hnext hends

theorem skipto_length {key : Key} {level : Nat} {ls rest : List (Line S)} {got : Got S}
    (h : (skipto key level ls).Returns (got, rest)) : rest.length < ls.length :=
  skipto_induction (P := fun _ ls => rest.length < ls.length)
    (fun hnext _ hrest => Nat.lt_trans hrest (next_control_length hnext))
    (fun hnext _ => next_control_length hnext) h

/-- `preprocess` from `start:` at a line that opens a conditional, or at an `#elif` that is
treated as an `#if`. -/
def start (o : Opening S) (st : Prepro S) (ls : List (Line S)) :
    Prep S (Prepro S × List (Line S)) := do
  let eval ← o.eval st.macros
  if eval then
    let st ← incr_ifstack st
    pure (st, ls)
  else
    (skipto .ELSE_OR_ENDIF 0 ls).attach >>= fun ⟨(condition, rest), _⟩ =>
      match condition with
      | .GOT_ELSE => do
        let st ← incr_ifstack st
        pure (st, rest)
      | .GOT_ELIF e junk => start (.P0_IF e junk) st rest
      | .GOT_ENDIF => pure (st, rest)
termination_by ls.length
decreasing_by exact skipto_length ‹_›

/-- The lines after a conditional whose condition is false: on to `#else`, to an `#elif`
that is due, or past `#endif`. -/
def notTaken (st : Prepro S) (ls : List (Line S)) : Prep S (Prepro S × List (Line S)) :=
  skipto .ELSE_OR_ENDIF 0 ls >>= fun r =>
    match r.1 with
    | .GOT_ELSE => incr_ifstack st >>= fun st' => pure (st', r.2)
    | .GOT_ELIF e junk => start (.P0_IF e junk) st r.2
    | .GOT_ENDIF => pure (st, r.2)

theorem start_eq (o : Opening S) (st : Prepro S) (ls : List (Line S)) :
    start o st ls = o.eval st.macros >>= fun eval =>
      if eval then incr_ifstack st >>= fun st' => pure (st', ls) else notTaken st ls := by
  rw [start]
  refine congrArg _ (funext fun eval => ?_)
  cases eval with
  | true => rfl
  | false =>
    apply Traced.bind_attached
    rintro ⟨condition, rest⟩ h
    cases condition <;> rfl

/-- The loop of `P0_ELIF`: skip until the `#endif` of the conditional has been passed. -/
def skip_rest (ls : List (Line S)) : Prep S (List (Line S)) :=
  (skipto .ELSE_OR_ENDIF 0 ls).attach >>= fun ⟨(condition, rest), _⟩ =>
    match condition with
    | .GOT_ENDIF => pure rest
    | _ => skip_rest rest
termination_by ls.length
decreasing_by all_goals exact skipto_length ‹_›

theorem skip_rest_eq (ls : List (Line S)) :
    skip_rest ls = skipto .ELSE_OR_ENDIF 0 ls >>= fun r =>
      match r.1 with
      | .GOT_ENDIF => pure r.2
      | _ => skip_rest r.2 := by
  rw [skip_rest]
  apply Traced.bind_attached
  rintro ⟨condition, rest⟩ h
  cases condition <;> rfl

/-- A directive that is read outside of skipped lines, and the lines after it. -/
def preprocess (d : Directive S) (st : Prepro S) (ls : List (Line S)) :
    Prep S (Prepro S × List (Line S)) :=
  match d with
  | .opening o => start o st ls
  | .P0_ELIF _ _ =>
    match st.ifstack with
    | [] => Traced.fail 1018
    | _ :: ifstack => do
      let rest ← skip_rest ls
      pure ({ st with ifstack := ifstack }, rest)
  | .P0_ELSE junk =>
    match st.ifstack with
    | [] => Traced.fail 1019
    | got :: ifstack =>
      if got ≠ GOT_IF then Traced.fail 1019
      else do
        chk_newline "#else" junk
        let (_, rest) ← skipto .ENDIF_ONLY 0 ls
        pure ({ st with ifstack := ifstack }, rest)
  | .P0_ENDIF junk =>
    match st.ifstack with
    | [] => Traced.fail 1020
    | _ :: ifstack => do
      chk_newline "#endif" junk
      pure ({ st with ifstack := ifstack }, ls)
  | .command c => do
    Traced.emit (.execute c)
    let macros ← Traced.lift (S.execute st.macros c)
    pure ({ st with macros := macros }, ls)
  | .P0_NOTOKEN => Traced.fail 1021

theorem incr_ifstack_returns {st st' : Prepro S} (h : (incr_ifstack st).Returns st') :
    st' = { st with ifstack := GOT_IF :: st.ifstack } := by
  unfold incr_ifstack at h
  split at h
  · exact (Traced.returns_pure.mp h).symm
  · exact absurd h Traced.not_returns_fail

theorem start_length {o : Opening S} {st st' : Prepro S} {ls rest : List (Line S)}
    (h : (start o st ls).Returns (st', rest)) : rest.length ≤ ls.length := by
  induction hn : ls.length using Nat.strongRecOn generalizing o ls with
  | _ n ih =>
    subst hn
    rw [start_eq, Traced.returns_bind] at h
    obtain ⟨eval, -, h⟩ := h
    cases eval with
    | true =>
      obtain ⟨st₁, -, h⟩ := Traced.returns_bind.mp h
      obtain ⟨-, rfl⟩ := Prod.mk.inj (Traced.returns_pure.mp h)
      exact Nat.le_refl _
    | false =>
      obtain ⟨⟨condition, ls'⟩, hskip, h⟩ := Traced.returns_bind.mp h
      have hlt := skipto_length hskip
      cases condition with
      | GOT_ELIF e junk => exact Nat.le_of_lt (Nat.lt_of_le_of_lt (ih _ hlt h rfl) hlt)
      | GOT_ELSE =>
        obtain ⟨st₁, -, h⟩ := Traced.returns_bind.mp h
        obtain ⟨-, rfl⟩ := Prod.mk.inj (Traced.returns_pure.mp h)
        exact Nat.le_of_lt hlt
      | GOT_ENDIF =>
        obtain ⟨-, rfl⟩ := Prod.mk.inj (Traced.returns_pure.mp h)
        exact Nat.le_of_lt hlt

theorem skip_rest_length {ls rest : List (Line S)} (h : (skip_rest ls).Returns rest) :
    rest.length ≤ ls.length := by
  induction hn : ls.length using Nat.strongRecOn generalizing ls with
  | _ n ih =>
    subst hn
    rw [skip_rest_eq, Traced.returns_bind] at h
    obtain ⟨⟨condition, ls'⟩, hskip, h⟩ := h
    have hlt := skipto_length hskip
    cases condition with
    | GOT_ENDIF =>
      obtain rfl := Traced.returns_pure.mp h
      exact Nat.le_of_lt hlt
    | GOT_ELSE => exact Nat.le_of_lt (Nat.lt_of_le_of_lt (ih _ hlt h rfl) hlt)
    | GOT_ELIF e junk => exact Nat.le_of_lt (Nat.lt_of_le_of_lt (ih _ hlt h rfl) hlt)

theorem preprocess_length {d : Directive S} {st st' : Prepro S} {ls rest : List (Line S)}
    (h : (preprocess d st ls).Returns (st', rest)) : rest.length ≤ ls.length := by
  obtain ⟨macros, ifstack⟩ := st
  cases d with
  | opening o => exact start_length h
  | P0_ELIF e junk =>
    cases ifstack with
    | nil => exact absurd h Traced.not_returns_fail
    | cons got ifstack =>
      obtain ⟨ls', hskip, h⟩ := Traced.returns_bind.mp h
      obtain ⟨-, rfl⟩ := Prod.mk.inj (Traced.returns_pure.mp h)
      exact skip_rest_length hskip
  | P0_ELSE junk =>
    cases ifstack with
    | nil => exact absurd h Traced.not_returns_fail
    | cons got ifstack =>
      simp only [preprocess] at h
      split at h
      · exact absurd h Traced.not_returns_fail
      · obtain ⟨-, -, h⟩ := Traced.returns_bind.mp h
        obtain ⟨⟨condition, ls'⟩, hskip, h⟩ := Traced.returns_bind.mp h
        obtain ⟨-, rfl⟩ := Prod.mk.inj (Traced.returns_pure.mp h)
        exact Nat.le_of_lt (skipto_length hskip)
  | P0_ENDIF junk =>
    cases ifstack with
    | nil => exact absurd h Traced.not_returns_fail
    | cons got ifstack =>
      obtain ⟨-, -, h⟩ := Traced.returns_bind.mp h
      obtain ⟨-, rfl⟩ := Prod.mk.inj (Traced.returns_pure.mp h)
      exact Nat.le_refl _
  | command c =>
    obtain ⟨-, -, h⟩ := Traced.returns_bind.mp h
    obtain ⟨macros', -, h⟩ := Traced.returns_bind.mp h
    obtain ⟨-, rfl⟩ := Prod.mk.inj (Traced.returns_pure.mp h)
    exact Nat.le_refl _
  | P0_NOTOKEN => exact absurd h Traced.not_returns_fail

/-- The loop over the tokens of the text, up to the end of the text. -/
def to_human (ls : List (Line S)) (st : Prepro S) : Prep S (Prepro S) :=
  match ls with
  | [] => pure st
  | .text t :: rest => do
    Traced.emit (.deliver t)
    to_human rest st
  | .directive d :: rest =>
    (preprocess d st rest).attach >>= fun ⟨(st', rest'), _⟩ => to_human rest' st'
termination_by ls.length
decreasing_by
  · exact Nat.lt_succ_self _
  · exact Nat.lt_succ_of_le (preprocess_length ‹_›)

@[simp] theorem to_human_nil (st : Prepro S) : to_human [] st = pure st := by
  rw [to_human]

@[simp] theorem to_human_text (t : S.Text) (rest : List (Line S)) (st : Prepro S) :
    to_human (.text t :: rest) st = Traced.emit (.deliver t) >>= fun _ => to_human rest st := by
  rw [to_human]

theorem to_human_directive (d : Directive S) (rest : List (Line S)) (st : Prepro S) :
    to_human (.directive d :: rest) st =
      preprocess d st rest >>= fun r => to_human r.2 r.1 := by
  rw [to_human]
  apply Traced.bind_attached
  exact fun _ _ => rfl

/-- The whole text: what is open at its end is an error. -/
def rcpp (ls : List (Line S)) (macros : S.State) : Prep S S.State := do
  let st ← to_human ls ⟨macros, []⟩
  if st.ifstack ≠ [] then Traced.fail 1022 else pure st.macros

end SdkTools.Rc.Conditionals
