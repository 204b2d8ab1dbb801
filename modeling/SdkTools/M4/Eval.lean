import SdkTools.M4.Number

/-!
# The expression evaluator of m4

The shift-reduce parser of `eval.c`. The expression stack is a list of cells with
the top first. Using a cell as what it is not, finding no cell, or eating more
characters than the token has is a `Fault`.
-/

namespace SdkTools.M4

set_option autoImplicit false

/-- The operators in the order of `EachEop`. -/
inductive Eop where
  | shl | shr | le | ge | eq | ne | land | lor | exp | mul | div | mod | add | sub
  | lt | gt | band | bxor | bor | lnot | bnot | plu | neg | flush | boe
deriving DecidableEq, Repr

namespace Eop

def text : Eop → List TCH
  | shl => [tch '<', tch '<']
  | shr => [tch '>', tch '>']
  | le => [tch '<', tch '=']
  | ge => [tch '>', tch '=']
  | eq => [tch '=', tch '=']
  | ne => [tch '!', tch '=']
  | land => [tch '&', tch '&']
  | lor => [tch '|', tch '|']
  | exp => [tch '*', tch '*']
  | mul => [tch '*']
  | div => [tch '/']
  | mod => [tch '%']
  | add => [tch '+']
  | sub => [tch '-']
  | lt => [tch '<']
  | gt => [tch '>']
  | band => [tch '&']
  | bxor => [tch '^']
  | bor => [tch '|']
  | lnot => [tch '!']
  | bnot => [tch '~']
  | plu | neg | flush | boe => []

def prec : Eop → Nat
  | neg | plu => 14
  | exp => 13
  | mul | div | mod => 12
  | add | sub => 11
  | shl | shr => 10
  | eq | ne | gt | ge | lt | le => 9
  | lnot => 8
  | bnot => 7
  | band => 6
  | bxor => 5
  | bor => 4
  | land => 3
  | lor => 2
  | flush => 1
  | boe => 0

/-- The flag `eopflUn`. -/
def isUn : Eop → Bool
  | lnot | bnot | plu | neg => true
  | _ => false

/-- The flag `eopflAmb`. -/
def isAmb : Eop → Bool
  | add | sub => true
  | _ => false

/-- The flag `eopflBin`. -/
def isBin : Eop → Bool
  | lnot | bnot | plu | neg | flush | boe => false
  | _ => true

/-- `UnFromAmb`: the unary alias of an ambiguous operator. -/
def unFromAmb : Eop → Eop
  | add => plu
  | sub => neg
  | o => o

end Eop

/-- The entries of `rgeopi` that the parser compares with the text. -/
def rgeopi : List Eop :=
  [.shl, .shr, .le, .ge, .eq, .ne, .land, .lor, .exp, .mul, .div, .mod, .add, .sub, .lt, .gt,
    .band, .bxor, .bor, .lnot, .bnot]

/-- The loop of `atExpAtAt`, on a positive exponent. -/
def atExpLoop : Nat → AT → AT → Nat → AT
  | 0, value, _, _ => value
  | fuel + 1, value, a, b =>
    if b = 0 then value
    else atExpLoop fuel (if b % 2 = 1 then value * a else value) (a * a) (b / 2)

/-- A positive `int` is used up after 31 halvings. -/
def atExpAtAt (a b : AT) : AT := if (0 : AT).slt b then atExpLoop 31 1 a b.toNat else 1

/-- What C leaves undefined: the value of a division or shift that has none. -/
abbrev Undefined := Eop → AT → AT → AT

def atOfBool (b : Bool) : AT := if b then 1 else 0

def eop1 : Eop → AT → AT
  | .lnot, a => atOfBool (a = 0)
  | .bnot, a => ~~~a
  | .neg, a => -a
  | _, a => a

/-- A quotient that is not an `int`: a zero divisor, or overflow. -/
def divUndefined (a b : AT) : Bool := b = 0 ∨ (a = BitVec.intMin 32 ∧ b = -1)

def eop2 (undef : Undefined) : Eop → AT → AT → AT
  | .shl, a, b => if b < 32 then a <<< b.toNat else undef .shl a b
  | .shr, a, b => if b < 32 then a.sshiftRight b.toNat else undef .shr a b
  | .le, a, b => atOfBool (a.sle b)
  | .ge, a, b => atOfBool (b.sle a)
  | .eq, a, b => atOfBool (a = b)
  | .ne, a, b => atOfBool (a ≠ b)
  | .land, a, b => atOfBool (a ≠ 0 ∧ b ≠ 0)
  | .lor, a, b => atOfBool (a ≠ 0 ∨ b ≠ 0)
  | .exp, a, b => atExpAtAt a b
  | .mul, a, b => a * b
  | .div, a, b => if divUndefined a b then undef .div a b else a.sdiv b
  | .mod, a, b => if divUndefined a b then undef .mod a b else a.srem b
  | .add, a, b => a + b
  | .sub, a, b => a - b
  | .lt, a, b => atOfBool (a.slt b)
  | .gt, a, b => atOfBool (b.slt a)
  | .band, a, b => a &&& b
  | .bxor, a, b => a ^^^ b
  | .bor, a, b => a ||| b
  | _, a, _ => a

inductive Cell where
  | eopi (o : Eop)
  | int (a : AT)
deriving DecidableEq, Repr

inductive Fault where
  /-- more characters are eaten than the token has -/
  | overrun
  /-- a cell is missing or of the other kind -/
  | badCell
  /-- the step bound of the model is reached -/
  | fuel
deriving DecidableEq, Repr

/-- The token `tokExpr` and the stack `rgcellEstack`. -/
structure EvalState where
  tokExpr : List TCH
  estack : List Cell
deriving DecidableEq, Repr

/-- The loop of `Reduce` with the integer `a` in `Tos(0)`. -/
def reduceLoop (undef : Undefined) (prec : Nat) (a : AT) : List Cell → Except Fault (List Cell)
  | .eopi q :: rest =>
    if q.prec > prec then
      if q.isUn then reduceLoop undef prec (eop1 q a) rest
      else if q.isBin then
        match rest with
        | .int b :: rest => reduceLoop undef prec (eop2 undef q b a) rest
        | _ => .error .badCell
      else .error .badCell
    else .ok (.int a :: .eopi q :: rest)
  | _ => .error .badCell

def reduce (undef : Undefined) : List Cell → Except Fault (List Cell)
  | .eopi o :: .int a :: rest => do
    let below ← reduceLoop undef o.prec a rest
    return .eopi o :: below
  | _ => .error .badCell

def eatHeadPtokCtch (tok : List TCH) (ctch : Nat) : Except Fault (List TCH) :=
  if ctch ≤ tok.length then .ok (tok.drop ctch) else .error .overrun

/-- The character that ends a macro argument; it follows the argument in memory. -/
inductive Terminator where
  | comma
  | rpar
deriving DecidableEq

def Terminator.tch : Terminator → TCH
  | comma => M4.tch ','
  | rpar => M4.tch ')'

/-- `ptchPtok(ptok)[0]`, which reads the terminator of a used up argument. -/
def ptch0 (term : Terminator) (tok : List TCH) : TCH := tok.headD term.tch

/-- The first operator of the table that the token starts with. -/
def findEopi (tok : List TCH) : Option Eop := rgeopi.find? fun o => o.text.isPrefixOf tok

section Parser

variable (undef : Undefined) (term : Terminator)

/-- Flush the stack down to the beginning of the expression. -/
def flushEstack (e : EvalState) : Except Fault (Bool × EvalState) := do
  match ← reduce undef (.eopi .flush :: e.estack) with
  | .eopi _ :: .int a :: .eopi .boe :: rest => return (true, { e with estack := .int a :: rest })
  | _ => .error .badCell

/-- The check for the closing parenthesis after a group was tried. -/
def closeParen : Bool × EvalState → Except Fault (Bool × EvalState)
  | (found, e) =>
    if found ∧ ptch0 term e.tokExpr = tch ')' then do
      let tok ← eatHeadPtokCtch e.tokExpr 1
      return (true, { e with tokExpr := tok })
    else return (false, e)

/-- What `fSecondary` does after a primary: go on, or return. -/
inductive Step where
  | again (e : EvalState)
  | done (found : Bool) (e : EvalState)

/-- The body of the loop in `fSecondary`, and what follows the loop. -/
def afterPrimary : Bool × EvalState → Except Fault Step
  | (true, e) =>
    match e.estack with
    | .eopi o :: .int _ :: _ =>
      if o.isBin then do
        let estack ← reduce undef e.estack
        return .again { e with estack }
      else return .done false e
    | .int _ :: .int _ :: _ => return .done false e
    | .eopi o :: .eopi q :: rest =>
      if o.isAmb then return .again { e with estack := .eopi o.unFromAmb :: .eopi q :: rest }
      else if o.isUn then return .again e
      else return .done false e
    | .int _ :: .eopi _ :: _ => return .again e
    | _ => .error .badCell
  | (false, e) =>
    match e.estack with
    | .eopi _ :: _ => return .done false e
    | .int _ :: _ => do
      let (found, e) ← flushEstack undef e
      return .done found e
    | [] => .error .badCell

mutual

def fPrimary : Nat → EvalState → Except Fault (Bool × EvalState)
  | 0, _ => .error .fuel
  | fuel + 1, e =>
    let tok := skipWhitePtok e.tokExpr
    match findEopi tok with
    | some o => do
      let tok ← eatHeadPtokCtch tok o.text.length
      return (true, ⟨tok, .eopi o :: e.estack⟩)
    | none =>
      match fEvalPtokPat tok with
      | some (a, tok) => .ok (true, ⟨tok, .int a :: e.estack⟩)
      | none =>
        if ptch0 term tok = tch '(' then do
          let tok ← eatHeadPtokCtch tok 1
          let group ← fSecondary fuel ⟨tok, e.estack⟩
          closeParen term group
        else .ok (false, ⟨tok, e.estack⟩)

def fSecondary : Nat → EvalState → Except Fault (Bool × EvalState)
  | 0, _ => .error .fuel
  | fuel + 1, e => fSecondaryLoop fuel { e with estack := .eopi .boe :: e.estack }

def fSecondaryLoop : Nat → EvalState → Except Fault (Bool × EvalState)
  | 0, _ => .error .fuel
  | fuel + 1, e => do
    let primary ← fPrimary fuel e
    match ← afterPrimary undef primary with
    | .again e => fSecondaryLoop fuel e
    | .done found e => return (found, e)

end

inductive Outcome where
  /-- there is no argument, and nothing is pushed -/
  | nothing
  | value (a : AT) (pushed : List TCH)
  /-- `Die`, with the part of the argument before the error and the part after it -/
  | expressionError (pre post : List TCH)
deriving DecidableEq, Repr

/-- A character costs three nested calls at most. -/
def evalFuel (arg : List TCH) : Nat := 3 * arg.length + 4

/-- The text pushed for a value, in the radix `$2` and the width `$3`. -/
def pushedText (argv : List (List TCH)) (a : AT) : List TCH :=
  pushAtRadixCtch a (atTraditionalPtok (argv.getD 1 []))
    (if argv.length ≥ 3 then atTraditionalPtok (argv.getD 2 []) else 0)

/-- The outcome for the arguments `$1`, `$2` and so on, and the stack that is left. -/
def opEval (argv : List (List TCH)) (estack : List Cell) :
    Except Fault (Outcome × List Cell) :=
  match argv with
  | [] => .ok (.nothing, estack)
  | arg :: _ => do
    let (found, e) ← fSecondary undef term (evalFuel arg) ⟨arg, estack⟩
    if found then
      match e.estack with
      | .int a :: rest => return (.value a (pushedText argv a), rest)
      | _ => .error .badCell
    else
      return (.expressionError (arg.take (arg.length - e.tokExpr.length)) e.tokExpr, e.estack)

end Parser

end SdkTools.M4
