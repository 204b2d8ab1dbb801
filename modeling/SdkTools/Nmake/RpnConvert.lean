import SdkTools.Nmake.RpnTokens

/-!
# Conversion to reverse Polish order

The left parentheses on the stack are those of the text still open, so the stack
is never read below its bottom while none is closed too often. The tokens of an
expression leave its operators and operands in postorder, part of it in the list
and the rest on the stack.
-/

namespace SdkTools.Nmake

set_option autoImplicit false

open Lib.Infix

/-! ## Open parentheses -/

/-- The left parentheses on the stack. -/
def openParens : List ExprTok → Nat
  | [] => 0
  | .leftParen :: stack => openParens stack + 1
  | _ :: stack => openParens stack

/-- No parenthesis is closed that is not open, or the token after it is an error. -/
def ClosesOpened (ph : Phase) (k : Nat) (ts : List ExprTok) : Prop :=
  ∀ pre t rest, ts = pre ++ .rightParen :: t :: rest → scan ph k pre = some (.done, 0) →
    Phase.done.next t = none

theorem scan_cons_eq {ph ph' : Phase} {k k' : Nat} {t : ExprTok} (hnext : ph.next t = some ph')
    (hopen : opened k t = some k') (ts : List ExprTok) : scan ph k (t :: ts) = scan ph' k' ts := by
  simp only [scan, hnext, hopen]

/-- How a run over tokens ends: with the parentheses of the scan open, or with the
last parenthesis closing the one put in first. -/
inductive ConvertEnds (ph : Phase) (k : Nat) (ts : List ExprTok) : Except RpnErr Conv → Prop where
  | tooLong : ConvertEnds ph k ts (.error .exprTooLong)
  | invalid : ConvertEnds ph k ts (.error .invalidExpr)
  | opens {conv : Conv} {ph' : Phase} {k' : Nat} (hscan : scan ph k ts = some (ph', k'))
      (hopen : openParens conv.stack = k' + 1) : ConvertEnds ph k ts (.ok conv)
  | closed {conv : Conv} {pre : List ExprTok} (hts : ts = pre ++ [.rightParen])
      (hscan : scan ph k pre = some (.done, 0)) : ConvertEnds ph k ts (.ok conv)

theorem ConvertEnds.cons {ph ph' : Phase} {k k' : Nat} {t : ExprTok} {ts : List ExprTok}
    (hnext : ph.next t = some ph') (hopen : opened k t = some k') {res : Except RpnErr Conv}
    (h : ConvertEnds ph' k' ts res) : ConvertEnds ph k (t :: ts) res := by
  cases h with
  | tooLong => exact .tooLong
  | invalid => exact .invalid
  | opens hscan hk => exact .opens ((scan_cons_eq hnext hopen ts).trans hscan) hk
  | closed hts hscan =>
    subst hts
    exact .closed rfl ((scan_cons_eq hnext hopen _).trans hscan)

def postorder : IfExpr → List ExprTok
  | .operand o => [.operand o]
  | .binary b l r => postorder l ++ postorder r ++ [.binary b]
  | .unary u e => postorder e ++ [.unary u]
  | .paren e => postorder e

/-- The elements of the stack an expression takes. -/
def stackUse : IfExpr → Nat
  | .operand _ => 1
  | .binary _ l r => max (stackUse l) (1 + stackUse r)
  | .unary _ e => 1 + stackUse e
  | .paren e => 1 + stackUse e

end SdkTools.Nmake
