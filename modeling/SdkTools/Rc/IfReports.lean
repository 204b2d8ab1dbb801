import Mathlib
import SdkTools.Rc.IfNesting

/-!
# Texts that are not well nested

A run without a fatal error has counted its conditionals: every `#elif`, `#else` and
`#endif` belongs to one, and none is open at the end. The order of the branches of a
conditional is checked where an `#else` is skipped because a branch was selected.
-/

namespace SdkTools.Rc.Conditionals

open Lib

set_option autoImplicit false

variable {S : Source}

/-- With `n` conditionals open, the lines open and close conditionals so that none is open
at the end. -/
def balanced : Nat → List (Line S) → Bool
  | n, [] => n == 0
  | n, .text _ :: ls => balanced n ls
  | n, .directive d :: ls =>
    match d with
    | .opening _ => balanced (n + 1) ls
    | .P0_ELIF _ _ | .P0_ELSE _ => n != 0 && balanced n ls
    | .P0_ENDIF _ => n != 0 && balanced (n - 1) ls
    | .command _ | .P0_NOTOKEN => balanced n ls

/-- How many conditionals are open after `skipto`, with `n` around the one it is in. -/
def Got.open_after (n : Nat) : Got S → Nat
  | .GOT_ENDIF => n
  | _ => n + 1

theorem next_control_balanced {ls rest : List (Line S)} {d : Directive S}
    (h : (next_control ls).Returns (d, rest)) (n : Nat) :
    balanced n ls = balanced n (.directive d :: rest) := by
  induction ls with
  | nil => exact nomatch h
  | cons l ls ih =>
    cases l with
    | text t => exact ih h
    | directive d' =>
      obtain ⟨rfl, rfl⟩ := Prod.mk.inj (Traced.returns_pure.mp h)
      rfl

theorem skipto_balanced {key : Key} {level : Nat} {ls rest : List (Line S)} {got : Got S}
    (h : (skipto key level ls).Returns (got, rest)) (n : Nat) :
    balanced (n + level + 1) ls = balanced (got.open_after n) rest := by
  apply skipto_induction (P := fun level ls =>
    balanced (n + level + 1) ls = balanced (got.open_after n) rest) _ _ h
  · intro level d ls ls' hnext hlevel hrest
    rw [next_control_balanced hnext, ← hrest]
    cases d with
    | P0_ENDIF junk =>
      obtain ⟨level', rfl⟩ := Nat.exists_eq_succ_of_ne_zero (hlevel junk rfl)
      rfl
    | _ => rfl
  · intro d ls hnext hends
    rw [next_control_balanced hnext]
    cases hends with
    | elif e junk => rfl
    | else_ junk => rfl
    | endif key junk => rfl

theorem start_balanced {o : Opening S} {st st' : Prepro S} {ls rest : List (Line S)}
    (h : (start o st ls).Returns (st', rest)) :
    balanced (st.ifstack.length + 1) ls = balanced st'.ifstack.length rest := by
  induction hn : ls.length using Nat.strongRecOn generalizing o ls with
  | _ n ih =>
    subst hn
    rw [start_eq, Traced.returns_bind] at h
    obtain ⟨eval, -, h⟩ := h
    cases eval with
    | true =>
      obtain ⟨st₁, hincr, h⟩ := Traced.returns_bind.mp h
      obtain ⟨rfl, rfl⟩ := Prod.mk.inj (Traced.returns_pure.mp h)
      rw [incr_ifstack_returns hincr, List.length_cons]
    | false =>
      obtain ⟨⟨condition, ls'⟩, hskip, h⟩ := Traced.returns_bind.mp h
      have hbal := skipto_balanced hskip st.ifstack.length
      rw [Nat.add_zero] at hbal
      rw [hbal]
      cases condition with
      | GOT_ELIF e junk => exact ih _ (skipto_length hskip) h rfl
      | GOT_ELSE =>
        obtain ⟨st₁, hincr, h⟩ := Traced.returns_bind.mp h
        obtain ⟨rfl, rfl⟩ := Prod.mk.inj (Traced.returns_pure.mp h)
        rw [incr_ifstack_returns hincr, List.length_cons]
        rfl
      | GOT_ENDIF =>
        obtain ⟨rfl, rfl⟩ := Prod.mk.inj (Traced.returns_pure.mp h)
        rfl

theorem skip_rest_balanced {ls rest : List (Line S)} (h : (skip_rest ls).Returns rest)
    (n : Nat) : balanced (n + 1) ls = balanced n rest := by
  induction hn : ls.length using Nat.strongRecOn generalizing ls with
  | _ m ih =>
    subst hn
    rw [skip_rest_eq, Traced.returns_bind] at h
    obtain ⟨⟨condition, ls'⟩, hskip, h⟩ := h
    rw [← Nat.add_zero n, skipto_balanced hskip n]
    cases condition with
    | GOT_ENDIF =>
      obtain rfl := Traced.returns_pure.mp h
      rfl
    | GOT_ELSE => exact ih _ (skipto_length hskip) h rfl
    | GOT_ELIF e junk => exact ih _ (skipto_length hskip) h rfl

theorem skipto_endif_only {level : Nat} {ls rest : List (Line S)} {got : Got S}
    (h : (skipto .ENDIF_ONLY level ls).Returns (got, rest)) : got = .GOT_ENDIF := by
  apply skipto_induction (P := fun _ _ => got = .GOT_ENDIF) _ _ h
  · exact fun _ _ hgot => hgot
  · intro d ls hnext hends
    cases hends with
    | endif key junk => rfl

theorem preprocess_balanced {d : Directive S} {st st' : Prepro S} {ls rest : List (Line S)}
    (h : (preprocess d st ls).Returns (st', rest)) :
    balanced st.ifstack.length (.directive d :: ls) = balanced st'.ifstack.length rest := by
  obtain ⟨macros, ifstack⟩ := st
  cases d with
  | opening o => exact start_balanced h
  | P0_ELIF e junk =>
    cases ifstack with
    | nil => exact absurd h Traced.not_returns_fail
    | cons got ifstack =>
      obtain ⟨ls', hskip, h⟩ := Traced.returns_bind.mp h
      obtain ⟨rfl, rfl⟩ := Prod.mk.inj (Traced.returns_pure.mp h)
      exact skip_rest_balanced hskip ifstack.length
  | P0_ELSE junk =>
    cases ifstack with
    | nil => exact absurd h Traced.not_returns_fail
    | cons got ifstack =>
      simp only [preprocess] at h
      split at h
      · exact absurd h Traced.not_returns_fail
      · obtain ⟨-, -, h⟩ := Traced.returns_bind.mp h
        obtain ⟨⟨condition, ls'⟩, hskip, h⟩ := Traced.returns_bind.mp h
        obtain ⟨rfl, rfl⟩ := Prod.mk.inj (Traced.returns_pure.mp h)
        obtain rfl := skipto_endif_only hskip
        exact skipto_balanced hskip ifstack.length
  | P0_ENDIF junk =>
    cases ifstack with
    | nil => exact absurd h Traced.not_returns_fail
    | cons got ifstack =>
      obtain ⟨-, -, h⟩ := Traced.returns_bind.mp h
      obtain ⟨rfl, rfl⟩ := Prod.mk.inj (Traced.returns_pure.mp h)
      rfl
  | command c =>
    obtain ⟨-, -, h⟩ := Traced.returns_bind.mp h
    obtain ⟨macros', -, h⟩ := Traced.returns_bind.mp h
    obtain ⟨rfl, rfl⟩ := Prod.mk.inj (Traced.returns_pure.mp h)
    rfl
  | P0_NOTOKEN => exact absurd h Traced.not_returns_fail

theorem to_human_balanced {ls : List (Line S)} {st st' : Prepro S}
    (h : (to_human ls st).Returns st') :
    balanced st.ifstack.length ls = (st'.ifstack.length == 0) := by
  induction hn : ls.length using Nat.strongRecOn generalizing ls st with
  | _ n ih =>
    subst hn
    cases ls with
    | nil =>
      rw [to_human_nil, Traced.returns_pure] at h
      rw [h]
      rfl
    | cons l ls =>
      cases l with
      | text t =>
        rw [to_human_text, Traced.returns_bind] at h
        obtain ⟨-, -, h⟩ := h
        have hrest := ih _ (Nat.lt_succ_self _) h rfl
        exact hrest
      | directive d =>
        rw [to_human_directive, Traced.returns_bind] at h
        obtain ⟨⟨st₁, rest⟩, hpre, h⟩ := h
        rw [preprocess_balanced hpre]
        exact ih _ (Nat.lt_succ_of_le (preprocess_length hpre)) h rfl

theorem rcpp_balanced {ls : List (Line S)} {macros macros' : S.State}
    (h : (rcpp ls macros).Returns macros') : balanced 0 ls = true := by
  obtain ⟨st, hrun, h⟩ := Traced.returns_bind.mp h
  have hbal := to_human_balanced hrun
  split at h
  · exact absurd h Traced.not_returns_fail
  · rename_i hopen
    rw [not_not.mp hopen] at hbal
    exact hbal

theorem rcpp_reports {ls : List (Line S)} (h : balanced 0 ls = false) (macros : S.State) :
    ∃ number, (rcpp ls macros).result = .error number := by
  rcases hrun : rcpp ls macros with ⟨t, number | macros'⟩
  · exact ⟨number, rfl⟩
  · have hret : (rcpp ls macros).Returns macros' := congrArg Traced.result hrun
    exact absurd (rcpp_balanced hret) (Bool.eq_false_iff.mp h)

/-- The fatal error for a directive that continues or ends a conditional where none is
open. -/
def Directive.stray : Directive S → Option Nat
  | .P0_ELIF _ _ => some 1018
  | .P0_ELSE _ => some 1019
  | .P0_ENDIF _ => some 1020
  | _ => none

theorem to_human_stray {d : Directive S} {number : Nat} (h : d.stray = some number)
    (rest : List (Line S)) (macros : S.State) :
    to_human (.directive d :: rest) (inside macros 0) = Traced.fail number := by
  rw [to_human_directive]
  cases d with
  | opening o => exact nomatch h
  | command c => exact nomatch h
  | P0_NOTOKEN => exact nomatch h
  | P0_ELIF e junk => exact congrArg Traced.fail (Option.some.inj h)
  | P0_ELSE junk => exact congrArg Traced.fail (Option.some.inj h)
  | P0_ENDIF junk => exact congrArg Traced.fail (Option.some.inj h)

/-- `#elif` and `#else`. -/
def Directive.branches : Directive S → Bool
  | .P0_ELIF _ _ => true
  | .P0_ELSE _ => true
  | _ => false

theorem skipto_second {d : Directive S} (h : d.branches = true) (b : Nested S .block)
    (rest : List (Line S)) :
    skipto .ENDIF_ONLY 0 (b.lines ++ .directive d :: rest) = Traced.fail 1022 := by
  rw [skipto_block, skipto_directive]
  cases d with
  | P0_ELIF e junk => rfl
  | P0_ELSE junk => rfl
  | opening o => exact nomatch h
  | command c => exact nomatch h
  | P0_NOTOKEN => exact nomatch h
  | P0_ENDIF junk => exact nomatch h

/-- An `#elif` or a second `#else` after the `#else` that follows a selected branch. -/
theorem to_human_second {d : Directive S} (h : d.branches = true) (junk : Bool)
    (b : Nested S .block) (rest : List (Line S)) (macros : S.State) (n : Nat) :
    to_human (.directive (.P0_ELSE junk) :: (b.lines ++ .directive d :: rest))
        (inside macros (n + 1)) =
      chk_newline "#else" junk >>= fun _ => Traced.fail 1022 := by
  rw [to_human_directive]
  simp only [preprocess, inside, List.replicate_succ, ne_eq, not_true_eq_false, if_false,
    bind_assoc, skipto_second h, Traced.fail_bind]

theorem rcpp_nested (b : Nested S .block) (macros : S.State) :
    rcpp b.lines macros = b.meaning 0 true macros := by
  have hrun := to_human_nested b 0 macros []
  rw [List.append_nil] at hrun
  have hinside : (⟨macros, []⟩ : Prepro S) = inside macros 0 := rfl
  rw [rcpp, hinside, hrun, bind_assoc]
  simp only [to_human_nil, pure_bind, inside, List.replicate_zero, ne_eq, not_true_eq_false,
    if_false, bind_pure]

/-! ## The order of the branches -/

/-- Whether the branches come in order, with a frame for each open conditional that says
whether its `#else` has been seen. -/
def ordered : List Bool → List (Line S) → Bool
  | frames, [] => frames == []
  | frames, .directive (.opening _) :: ls => ordered (false :: frames) ls
  | frames, .directive (.P0_ELIF _ _) :: ls => frames.head? == some false && ordered frames ls
  | frames, .directive (.P0_ELSE _) :: ls =>
    frames.head? == some false && ordered (true :: frames.tail) ls
  | frames, .directive (.P0_ENDIF _) :: ls => frames != [] && ordered frames.tail ls
  | frames, _ :: ls => ordered frames ls

theorem ordered_plain {l : Line S} (h : l.plain = true) (frames : List Bool)
    (ls : List (Line S)) : ordered frames (l :: ls) = ordered frames ls := by
  match l, h with
  | .text t, _ => rfl
  | .directive (.command c), _ => rfl
  | .directive .P0_NOTOKEN, _ => rfl

def Ordered : (p : Part) → Nested S p → Prop
  | .block, b => ∀ frames rest, ordered frames (b.lines ++ rest) = ordered frames rest
  | .branches, t => ∀ frames rest,
      ordered (false :: frames) (t.lines ++ rest) = ordered frames rest

theorem ordered_lines {p : Part} (b : Nested S p) : Ordered p b := by
  induction b with
  | nil => exact fun frames rest => rfl
  | line l h rest ih =>
    intro frames rest'
    rw [Nested.lines, List.cons_append, ordered_plain h]
    exact ih frames rest'
  | conditional o body tail rest ihb iht ihr =>
    intro frames rest'
    rw [Nested.lines, List.cons_append, List.append_assoc, List.append_assoc, ordered, ihb, iht]
    exact ihr frames rest'
  | endif junk => exact fun frames rest => rfl
  | elif e junk body tail ihb iht =>
    intro frames rest
    rw [Nested.lines, List.cons_append, List.append_assoc, ordered, ihb, iht]
    rfl
  | else_endif junk body junk' ihb =>
    intro frames rest
    rw [Nested.lines, List.cons_append, List.append_assoc, ordered, ihb]
    rfl

theorem ordered_nested (b : Nested S .block) : ordered [] b.lines = true := by
  have h := ordered_lines b [] []
  rwa [List.append_nil] at h

/-- Conditions are their own values; there are no names and no other directives. -/
def constants : Source where
  Expr := Int
  Name := Empty
  Command := Empty
  Text := Nat
  State := Unit
  do_constexpr _ e := .ok e
  get_defined _ _ := false
  execute _ _ := .ok ()

/-- The run of a text of conditionals: what is delivered, evaluated and reported. For every
well-nested text it is the meaning of the text, and the open conditionals are those from
before it. A text whose conditionals do not balance ends in a fatal error, as does an
`#elif`, `#else` or `#endif` outside of a conditional, and an `#elif` or `#else` after the
`#else` of a conditional whose selected branch that `#else` ends. -/
theorem preprocess_conditionals :
    (∀ (b : Nested S .block) (d : Nat) (macros : S.State) (rest : List (Line S)),
      to_human (b.lines ++ rest) (inside macros d) =
        b.meaning d true macros >>= fun macros' => to_human rest (inside macros' d)) ∧
    (∀ (b : Nested S .block) (macros : S.State),
      rcpp b.lines macros = b.meaning 0 true macros) ∧
    (∀ (ls : List (Line S)) (macros : S.State), balanced 0 ls = false →
      ∃ number, (rcpp ls macros).result = .error number) ∧
    (∀ (b : Nested S .block) (d : Directive S) (number : Nat) (rest : List (Line S))
      (macros : S.State), d.stray = some number →
      rcpp (b.lines ++ .directive d :: rest) macros =
        b.meaning 0 true macros >>= fun _ => Traced.fail number) ∧
    (∀ (b : Nested S .block) (d : Directive S) (junk : Bool) (rest : List (Line S))
      (macros : S.State) (n : Nat), d.branches = true →
      to_human (.directive (.P0_ELSE junk) :: (b.lines ++ .directive d :: rest))
          (inside macros (n + 1)) =
        chk_newline "#else" junk >>= fun _ => Traced.fail 1022) := by
  refine ⟨to_human_nested, rcpp_nested, fun ls macros h => rcpp_reports h macros, ?_, ?_⟩
  · intro b d number rest macros h
    have hrun := to_human_nested b 0 macros (.directive d :: rest)
    have hinside : (⟨macros, []⟩ : Prepro S) = inside macros 0 := rfl
    rw [rcpp, hinside, hrun, bind_assoc]
    refine congrArg _ (funext fun macros' => ?_)
    rw [to_human_stray h, Traced.fail_bind]
  · exact fun b d junk rest macros n h => to_human_second h junk b rest macros n

/-- `#if 0`, a line, `#elif 1`, a line, `#else`, a line, `#endif`. -/
def second_branch : Nested constants .block :=
  .conditional (.P0_IF (0 : Int) false) (.line (.text (1 : Nat)) rfl .nil)
    (.elif (1 : Int) false (.line (.text (2 : Nat)) rfl .nil)
      (.else_endif false (.line (.text (3 : Nat)) rfl .nil) false)) .nil

theorem preprocess_conditionals_elif :
    (rcpp second_branch.lines ()).trace =
      [.evaluate (0 : Int), .evaluate (1 : Int), .deliver (2 : Nat)] ∧
    ∃ number, (rcpp ([.directive (.P0_ELSE false)] : List (Line constants)) ()).result =
      .error number := by
  obtain ⟨-, hnested, hreports, -⟩ := preprocess_conditionals (S := constants)
  constructor
  · exact congrArg Traced.trace (hnested second_branch ())
  · exact hreports _ () rfl

/-- `#if 0`, `#if 1`, `#else`, `#else`, `#endif`, `#endif`. -/
def second_else : List (Line constants) :=
  [.directive (.opening (.P0_IF (0 : Int) false)),
    .directive (.opening (.P0_IF (1 : Int) false)), .directive (.P0_ELSE false),
    .directive (.P0_ELSE false), .directive (.P0_ENDIF false), .directive (.P0_ENDIF false)]

theorem skipto_second_else : skipto .ELSE_OR_ENDIF 0 second_else.tail =
    (pure (.GOT_ENDIF, []) : Prep constants _) := by
  simp only [second_else, List.tail_cons, skipto_directive, found, Nat.zero_add,
    Nat.succ_ne_zero, ne_eq, not_false_eq_true, if_true, if_false, Nat.sub_self]
  rfl

/-- A second `#else` in a skipped conditional is passed over: the text is not well nested,
and nothing is reported. -/
theorem skipped_second_else : (rcpp second_else ()).result = .ok () ∧
    ∀ b : Nested constants .block, b.lines ≠ second_else := by
  constructor
  · have hstart : start (.P0_IF (0 : Int) false) (inside () 0) second_else.tail =
        (⟨[.evaluate (0 : Int)], .ok (inside () 0, [])⟩ : Prep constants _) := by
      rw [start_eq, notTaken, skipto_second_else]
      rfl
    have hrun : to_human second_else (inside () 0) =
        (⟨[.evaluate (0 : Int)], .ok (inside () 0)⟩ : Prep constants _) := by
      rw [second_else, to_human_directive, preprocess]
      exact (congrArg (· >>= _) hstart).trans (by rw [Traced.bind_ok, to_human_nil]; rfl)
    have hinside : (⟨(), []⟩ : Prepro constants) = inside () 0 := rfl
    unfold rcpp
    rw [hinside, hrun]
    rfl
  · intro b hb
    have h := ordered_nested b
    rw [hb] at h
    cases h

end SdkTools.Rc.Conditionals
