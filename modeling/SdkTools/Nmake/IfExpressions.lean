import SdkTools.Nmake.RpnConvert

/-!
# What `handleExpr` computes

The value of an expression is given by its tree, operands from left to right.
`handleExpr` computes it where each minus after an operand or a parenthesis stands
after an integer, no parenthesis is closed that is not open, every argument of a
word is terminated, and the expression fits the stack and the list.
-/

namespace SdkTools.Nmake

set_option autoImplicit false

open Lib.Infix

/-! ## The value of an expression -/

def RpnResult.andThen {α β : Type} (res : RpnResult α) (f : List Text → α → RpnResult β) :
    RpnResult β :=
  match res with
  | (hist, .error e) => (hist, .error e)
  | (hist, .ok a) => f hist a

theorem stackUse_pos (e : IfExpr) : 0 < stackUse e := by
  induction e with
  | operand o => exact Nat.zero_lt_one
  | binary b l r ihl ihr => exact Nat.lt_of_lt_of_le ihl (Nat.le_max_left _ _)
  | unary u e ih => exact Nat.lt_of_lt_of_le Nat.zero_lt_one (Nat.le_add_right _ _)
  | paren e ih => exact Nat.lt_of_lt_of_le Nat.zero_lt_one (Nat.le_add_right _ _)

/-- The text is the expression `e`. -/
def TextExpr (env : ExprEnv) (text : Text) (e : IfExpr) : Prop :=
  (textToks env text).2 = none ∧
    Derives BinOp.prec unaryPrec 1 (grammarToks .leftParen (textToks env text).1) e

/-- The expression has room on the stack, above the parenthesis put in first, and
in the list. -/
def Fits (e : IfExpr) : Prop := 1 + stackUse e ≤ TEMPSTACKSIZE ∧ (postorder e).length ≤ LISTSIZE

/-- The code's reading of the tokens of a text meets none of its defects. -/
structure Plain (env : ExprEnv) (text : Text) : Prop where
  /-- in an expression a minus after an operand or a parenthesis is after an integer -/
  minus : ∀ e, TextExpr env text e → codeToks .leftParen (textToks env text).1 =
    grammarToks .leftParen (textToks env text).1
  /-- no parenthesis is closed that is not open -/
  parens : ClosesOpened .start 0 (streamToks .leftParen (textToks env text))
  /-- an argument that is not terminated comes after an error -/
  terminated : (textToks env text).2 = some .pastEnd →
    (codeToks .leftParen (textToks env text).1).foldlM Phase.next .start = none
  fits : ∀ e, TextExpr env text e → Fits e

end SdkTools.Nmake
