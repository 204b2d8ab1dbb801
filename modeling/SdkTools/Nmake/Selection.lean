import SdkTools.Nmake.Directives

/-!
# Which lines of a makefile are selected

The text as a list of items: the characters of ordinary lines and the
directives. `Means` says what a well-nested list of items delivers, carries out
and evaluates; `specRun` says it for every list of items, with a frame for each
open conditional.
-/

namespace SdkTools.Nmake

set_option autoImplicit false

/-- A character of an ordinary line, or a directive with the number of characters
after it; a directive line that cannot be read has its error. -/
inductive Item where
  | char (c : Char)
  | directive (pos : Nat) (kind : DirType) (s : Text)
  | bad (e : Err)
deriving DecidableEq, Repr

/-- The items of a text; a line that begins with `!` is a directive. -/
def items (env : Env) : Nat → Bool → Text → List Item
  | 0, _, _ => []
  | _, _, [] => []
  | k + 1, colZero, c :: text =>
    if colZero && c == '!' then
      match readInOneLine env text with
      | .error e => [.bad e]
      | .ok (s, rest) =>
        match getDirType s with
        | .error e => [.bad e]
        | .ok (kind, t) => .directive rest.length kind t :: items env k true rest
    else .char c :: items env k (c == '\n') text

/-- An open conditional: `cur` tells whether its present branch is selected,
`waiting` whether a later one may be. -/
structure Frame where
  cur : Bool
  waiting : Bool
  elseSeen : Bool
deriving DecidableEq, Repr

def selected : List Frame → Bool
  | [] => true
  | f :: _ => f.cur

def DirType.isIf : DirType → Bool
  | .ifType | .ifdef | .ifndef => true
  | _ => false

def DirType.isElseIf : DirType → Bool
  | .elseIf | .elseIfdef | .elseIfndef => true
  | _ => false

theorem DirType.of_isElseIf {kind : DirType} (h : kind.isElseIf = true) :
    kind.notIf = false ∧ kind.isIf = false ∧ kind ≠ .endif ∧ kind ≠ .elseType := by
  cases kind with
  | elseIf => exact ⟨rfl, rfl, DirType.noConfusion, DirType.noConfusion⟩
  | elseIfdef => exact ⟨rfl, rfl, DirType.noConfusion, DirType.noConfusion⟩
  | elseIfndef => exact ⟨rfl, rfl, DirType.noConfusion, DirType.noConfusion⟩
  | _ => cases h

theorem DirType.notIf_of_isIf {kind : DirType} (h : kind.isIf = true) : kind.notIf = false := by
  cases kind with
  | ifType => rfl
  | ifdef => rfl
  | ifndef => rfl
  | _ => cases h

/-- A directive type is about something else, opens a conditional, ends a branch or
ends the conditional. -/
theorem DirType.cases_kind (kind : DirType) :
    kind.notIf = true ∨ kind.isIf = true ∨ kind.isElseIf = true ∨ kind = .elseType ∨
      kind = .endif := by
  cases kind <;> simp [DirType.notIf, DirType.isIf, DirType.isElseIf]

/-- A branch whose condition counts when `eval` holds. -/
def specBranch (env : Env) (eval : Bool) (pos : Nat) (kind : DirType) (s : Text)
    (stack : List Frame) : Result (List Frame) :=
  if eval then
    ([.evaluate pos kind s], (evalExpr env pos kind s).map fun v => ⟨v, !v, false⟩ :: stack)
  else ([], .ok (⟨false, false, false⟩ :: stack))

def specStep (env : Env) (stack : List Frame) : Item → Result (List Frame)
  | .bad e => ([], .error e)
  | .char c => (if selected stack then [.deliver c] else [], .ok stack)
  | .directive pos kind s =>
    if kind.notIf then
      if selected stack then
        ([.execute pos kind s], if kind = .error then .error .userControlled else .ok stack)
      else ([], .ok stack)
    else if kind.isIf then
      if stack.length = IFSTACKSIZE then ([], .error .tooManyIfs)
      else specBranch env (selected stack) pos kind s stack
    else
      match stack with
      | [] => ([], .error (if kind = .endif then .unexpectedEndif else .unexpectedElse))
      | top :: stack =>
        if kind = .endif then ([], .ok stack)
        else if top.elseSeen then ([], .error .unexpectedElse)
        else if kind = .elseType then ([], .ok (⟨top.waiting, false, true⟩ :: stack))
        else specBranch env top.waiting pos kind s stack

def specRun (env : Env) : List Frame → List Item → Outcome
  | stack, [] => ([], if selected stack then none else some .eofNoDirective)
  | stack, item :: its =>
    match specStep env stack item with
    | (events, .error e) => (events, some e)
    | (events, .ok stack) => Outcome.after events (specRun env stack its)

end SdkTools.Nmake
