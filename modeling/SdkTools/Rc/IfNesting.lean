import SdkTools.Rc.Preprocess

/-!
# Well-nested texts and what they mean

A well-nested text is a tree of conditionals. Its meaning is what the branches leave
behind that are selected: the first branch whose condition holds, or else the `#else`
branch; a condition is evaluated when no branch before it was selected.
-/

namespace SdkTools.Rc.Conditionals

open Lib

set_option autoImplicit false

variable {S : Source}

/-- A line that neither opens nor continues nor closes a conditional. -/
def Line.plain : Line S → Bool
  | .text _ => true
  | .directive (.command _) => true
  | .directive .P0_NOTOKEN => true
  | _ => false

/-- What a plain line does where it is selected. -/
def Line.perform (macros : S.State) : Line S → Prep S S.State
  | .text t => Traced.emit (.deliver t) >>= fun _ => pure macros
  | .directive (.command c) =>
    Traced.emit (.execute c) >>= fun _ => Traced.lift (S.execute macros c)
  | .directive _ => Traced.fail 1021

/-- A sequence of lines and conditionals, or the branches after the first one of a
conditional with its `#endif`. -/
inductive Part where
  | block
  | branches

inductive Nested (S : Source) : Part → Type where
  | nil : Nested S .block
  | line (l : Line S) (h : l.plain = true) (rest : Nested S .block) : Nested S .block
  | conditional (o : Opening S) (body : Nested S .block) (tail : Nested S .branches)
      (rest : Nested S .block) : Nested S .block
  | endif (junk : Bool) : Nested S .branches
  | elif (e : S.Expr) (junk : Bool) (body : Nested S .block) (tail : Nested S .branches) :
      Nested S .branches
  | else_endif (junk : Bool) (body : Nested S .block) (junk' : Bool) : Nested S .branches

namespace Nested

def lines {p : Part} : Nested S p → List (Line S)
  | nil => []
  | line l _ rest => l :: rest.lines
  | conditional o body tail rest =>
    .directive (.opening o) :: (body.lines ++ (tail.lines ++ rest.lines))
  | endif junk => [.directive (.P0_ENDIF junk)]
  | elif e junk body tail => .directive (.P0_ELIF e junk) :: (body.lines ++ tail.lines)
  | else_endif junk body junk' =>
    .directive (.P0_ELSE junk) :: (body.lines ++ [.directive (.P0_ENDIF junk')])

end Nested

/-- A branch inside of `d` open conditionals, if it is selected. -/
def branch (selected : Bool) (d : Nat) (body : Prep S S.State) (macros : S.State) :
    Prep S S.State :=
  if selected then if d < IFSTACK_SIZE then body else Traced.fail 1052 else pure macros

namespace Nested

/-- What a part of the text means inside of `d` open conditionals; `due` says of branches
that none before them was selected. -/
def meaning {p : Part} : Nested S p → Nat → Bool → S.State → Prep S S.State
  | nil, _, _, macros => pure macros
  | line l _ rest, d, due, macros => l.perform macros >>= rest.meaning d due
  | conditional o body tail rest, d, due, macros =>
    o.eval macros >>= fun eval =>
      branch eval d (body.meaning (d + 1) true macros) macros >>=
        tail.meaning d (!eval) >>= rest.meaning d due
  | endif junk, _, _, macros => chk_newline "#endif" junk >>= fun _ => pure macros
  | elif e junk body tail, d, due, macros =>
    if due then
      (Opening.P0_IF e junk).eval macros >>= fun eval =>
        branch eval d (body.meaning (d + 1) true macros) macros >>= tail.meaning d (!eval)
    else tail.meaning d false macros
  | else_endif junk body junk', d, due, macros =>
    chk_newline "#else" junk >>= fun _ =>
      branch due d (body.meaning (d + 1) true macros) macros >>= fun macros' =>
        chk_newline "#endif" junk' >>= fun _ => pure macros'

end Nested

/-! ## Skipping -/

attribute [local simp] Nested.lines Nested.meaning

theorem skipto_plain (key : Key) (level : Nat) {l : Line S} (h : l.plain = true)
    (ls : List (Line S)) : skipto key level (l :: ls) = skipto key level ls := by
  match l, h with
  | .text t, _ => exact skipto_text key level t ls
  | .directive (.command c), _ => exact skipto_directive key level _ ls
  | .directive .P0_NOTOKEN, _ => exact skipto_directive key level _ ls

/-- What skipping does with a part of a text: a block is passed over at every level, and
branches end the level that they belong to. -/
def Skipped : (p : Part) → Nested S p → Prop
  | .block, b => ∀ key level rest, skipto key level (b.lines ++ rest) = skipto key level rest
  | .branches, t => ∀ key level rest,
      skipto key (level + 1) (t.lines ++ rest) = skipto key level rest

theorem skipped {p : Part} (b : Nested S p) : Skipped p b := by
  induction b with
  | nil => exact fun key level rest => rfl
  | line l h rest ih =>
    intro key level rest'
    rw [Nested.lines, List.cons_append, skipto_plain key level h]
    exact ih key level rest'
  | conditional o body tail rest ihb iht ihr =>
    intro key level rest'
    rw [Nested.lines, List.cons_append, skipto_directive, List.append_assoc, List.append_assoc]
    dsimp only [found]
    rw [ihb, iht]
    exact ihr key level rest'
  | endif junk => exact fun key level rest => skipto_directive key (level + 1) _ rest
  | elif e junk body tail ihb iht =>
    intro key level rest
    rw [Nested.lines, List.cons_append, skipto_directive, List.append_assoc]
    dsimp only [found]
    rw [if_pos (Nat.succ_ne_zero level), ihb]
    exact iht key level rest
  | else_endif junk body junk' ihb =>
    intro key level rest
    rw [Nested.lines, List.cons_append, skipto_directive, List.append_assoc]
    dsimp only [found]
    rw [if_pos (Nat.succ_ne_zero level), ihb]
    exact skipto_directive key (level + 1) _ rest

theorem skipto_block (b : Nested S .block) (key : Key) (level : Nat) (rest : List (Line S)) :
    skipto key level (b.lines ++ rest) = skipto key level rest := skipped b key level rest

theorem notTaken_block (st : Prepro S) (b : Nested S .block) (rest : List (Line S)) :
    notTaken st (b.lines ++ rest) = notTaken st rest := by
  rw [notTaken, skipto_block, ← notTaken]

theorem skip_rest_block (b : Nested S .block) (rest : List (Line S)) :
    skip_rest (b.lines ++ rest) = skip_rest rest := by
  rw [skip_rest_eq, skipto_block, ← skip_rest_eq]

/-- After a branch was selected, an `#elif` passes over whatever branches follow it. -/
theorem skip_rest_branches {β : Type} (k : S.State → List (Line S) → Prep S β) :
    ∀ (t : Nested S .branches) (d : Nat) (macros : S.State) (rest : List (Line S)),
      (skip_rest (t.lines ++ rest) >>= k macros) =
        t.meaning d false macros >>= fun macros' => k macros' rest
  | .endif junk, d, macros, rest => by
    rw [skip_rest_eq, Nested.lines, List.cons_append, skipto_directive]
    simp only [found, if_true, Nested.meaning, bind_assoc, pure_bind, List.nil_append]
  | .elif e junk body tail, d, macros, rest => by
    rw [skip_rest_eq, Nested.lines, List.cons_append, skipto_directive]
    simp only [found, ne_eq, not_true_eq_false, if_false, pure_bind, List.append_assoc,
      skip_rest_block, Nested.meaning, Bool.false_eq_true]
    exact skip_rest_branches k tail d macros rest
  | .else_endif junk body junk', d, macros, rest => by
    rw [skip_rest_eq, Nested.lines, List.cons_append, skipto_directive]
    simp only [found, ne_eq, not_true_eq_false, if_false, pure_bind, bind_assoc,
      List.append_assoc, skip_rest_block, Nested.meaning, branch, Bool.false_eq_true]
    rw [skip_rest_eq, List.cons_append, skipto_directive]
    simp only [found, if_true, bind_assoc, pure_bind, List.nil_append]

/-! ## Reading -/

/-- The state inside of `d` open conditionals. -/
def inside (macros : S.State) (d : Nat) : Prepro S := ⟨macros, List.replicate d GOT_IF⟩

theorem incr_ifstack_inside (macros : S.State) (d : Nat) :
    incr_ifstack (inside macros d) =
      if d < IFSTACK_SIZE then pure (inside macros (d + 1)) else Traced.fail 1052 := by
  rw [incr_ifstack, inside, List.length_replicate]
  rfl

/-- The branches after one that was selected: they are passed over. -/
theorem to_human_taken (t : Nested S .branches) (d : Nat) (macros : S.State)
    (rest : List (Line S)) : to_human (t.lines ++ rest) (inside macros (d + 1)) =
      t.meaning d false macros >>= fun macros' => to_human rest (inside macros' d) := by
  cases t with
  | endif junk =>
    rw [Nested.lines, List.cons_append, to_human_directive]
    simp only [preprocess, inside, List.replicate_succ, Nested.meaning, bind_assoc, pure_bind,
      List.nil_append]
  | elif e junk body tail =>
    rw [Nested.lines, List.cons_append, to_human_directive]
    simp only [preprocess, inside, List.replicate_succ, Nested.meaning, bind_assoc, pure_bind,
      List.append_assoc, skip_rest_block, Bool.false_eq_true, if_false]
    exact skip_rest_branches (fun m r => to_human r (inside m d)) tail d macros rest
  | else_endif junk body junk' =>
    rw [Nested.lines, List.cons_append, to_human_directive]
    simp only [preprocess, inside, List.replicate_succ, Nested.meaning, bind_assoc, pure_bind,
      List.append_assoc, skipto_block, ne_eq, not_true_eq_false, if_false, branch,
      Bool.false_eq_true]
    rw [List.cons_append, skipto_directive]
    simp only [found, if_true, bind_assoc, pure_bind, List.nil_append]

/-- How a part of a text is read: a block, or the branches after those that were not
selected. -/
def Read : (p : Part) → Nested S p → Prop
  | .block, b => ∀ d due macros rest, to_human (b.lines ++ rest) (inside macros d) =
      b.meaning d due macros >>= fun macros' => to_human rest (inside macros' d)
  | .branches, t => ∀ d macros rest,
      (notTaken (inside macros d) (t.lines ++ rest) >>= fun r => to_human r.2 r.1) =
        t.meaning d true macros >>= fun macros' => to_human rest (inside macros' d)

/-- A conditional whose condition is due: it is evaluated, and its branches are read. -/
theorem read_start {body : Nested S .block} {tail : Nested S .branches}
    (hbody : Read .block body) (htail : Read .branches tail) (o : Opening S) (d : Nat)
    (macros : S.State) (rest : List (Line S)) :
    (start o (inside macros d) (body.lines ++ (tail.lines ++ rest)) >>= fun r =>
        to_human r.2 r.1) =
      o.eval macros >>= fun eval =>
        branch eval d (body.meaning (d + 1) true macros) macros >>= fun macros' =>
          tail.meaning d (!eval) macros' >>= fun macros'' => to_human rest (inside macros'' d) := by
  rw [start_eq, bind_assoc]
  refine congrArg _ (funext fun eval => ?_)
  cases eval with
  | true =>
    simp only [if_true, incr_ifstack_inside, branch]
    split
    · simp only [pure_bind]
      rw [hbody (d + 1) true macros (tail.lines ++ rest)]
      exact congrArg _ (funext fun macros' => to_human_taken tail d macros' rest)
    · simp only [Traced.fail_bind]
  | false =>
    simp only [Bool.false_eq_true, if_false, notTaken_block, branch, pure_bind]
    exact htail d macros rest

theorem read_plain {l : Line S} (h : l.plain = true) (rest : List (Line S)) (d : Nat)
    (macros : S.State) : to_human (l :: rest) (inside macros d) =
      l.perform macros >>= fun macros' => to_human rest (inside macros' d) := by
  match l, h with
  | .text t, _ => rw [to_human_text, Line.perform, bind_assoc]; rfl
  | .directive (.command c), _ =>
    rw [to_human_directive]
    simp only [preprocess, Line.perform, bind_assoc, pure_bind, inside]
  | .directive .P0_NOTOKEN, _ =>
    rw [to_human_directive]
    simp only [preprocess, Line.perform, Traced.fail_bind]

theorem read {p : Part} (b : Nested S p) : Read p b := by
  induction b with
  | nil =>
    intro d due macros rest
    rfl
  | line l h rest ih =>
    intro d due macros rest'
    rw [Nested.lines, List.cons_append, read_plain h, Nested.meaning, bind_assoc]
    exact congrArg _ (funext fun macros' => ih d due macros' rest')
  | conditional o body tail rest ihb iht ihr =>
    intro d due macros rest'
    rw [Nested.lines, List.cons_append, to_human_directive, List.append_assoc, List.append_assoc,
      preprocess, read_start ihb iht, Nested.meaning, bind_assoc]
    refine congrArg _ (funext fun eval => ?_)
    rw [bind_assoc, bind_assoc]
    refine congrArg _ (funext fun macros' => congrArg _ (funext fun macros'' => ?_))
    exact ihr d due macros'' rest'
  | endif junk =>
    intro d macros rest
    rw [notTaken, Nested.lines, List.cons_append, skipto_directive]
    simp only [found, if_true, bind_assoc, pure_bind, List.nil_append, Nested.meaning]
  | elif e junk body tail ihb iht =>
    intro d macros rest
    rw [notTaken, Nested.lines, List.cons_append, skipto_directive]
    simp only [found, ne_eq, not_true_eq_false, if_false, pure_bind, List.append_assoc,
      Nested.meaning, if_true, bind_assoc]
    exact read_start ihb iht (.P0_IF e junk) d macros rest
  | else_endif junk body junk' ihb =>
    intro d macros rest
    rw [notTaken, Nested.lines, List.cons_append, skipto_directive]
    simp only [found, ne_eq, not_true_eq_false, if_false, pure_bind, List.append_assoc,
      Nested.meaning, bind_assoc, incr_ifstack_inside, branch, if_true]
    refine congrArg _ (funext fun _ => ?_)
    split
    · rw [pure_bind, ihb (d + 1) true macros]
      refine congrArg _ (funext fun macros' => ?_)
      have hend := to_human_taken (.endif junk') d macros' rest
      simpa [bind_assoc] using hend
    · rw [Traced.fail_bind, Traced.fail_bind]

/-- A well-nested text does what it means and leaves as many conditionals open as there
were before it. -/
theorem to_human_nested (b : Nested S .block) (d : Nat) (macros : S.State)
    (rest : List (Line S)) : to_human (b.lines ++ rest) (inside macros d) =
      b.meaning d true macros >>= fun macros' => to_human rest (inside macros' d) :=
  read b d true macros rest

end SdkTools.Rc.Conditionals
