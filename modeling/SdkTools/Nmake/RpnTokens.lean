import SdkTools.Nmake.Rpn

/-!
# The tokens of an `!IF` expression

A text as the list of its tokens and the way it ends. `codeToks` takes a minus as
`getTok` does, `grammarToks` as the grammar of expressions wants it. The loop of
`handleExpr` over the text is a run over these tokens.
-/

namespace SdkTools.Nmake

set_option autoImplicit false

open Lib.Infix

/-- The tokens of a text and the error in place of the next one, if any. -/
def lexAll (env : ExprEnv) : Nat → Option Text → List RawTok × Option RpnErr
  | 0, _ => ([], some .fuel)
  | _ + 1, none => ([], some .pastEnd)
  | k + 1, some text =>
    match lexTok env text with
    | .error e => ([], some e)
    | .ok (.eof, _) => ([], none)
    | .ok (raw, rest) => (raw :: (lexAll env k rest).1, (lexAll env k rest).2)

def textToks (env : ExprEnv) (text : Text) : List RawTok × Option RpnErr :=
  lexAll env (text.length + 1) (some text)

/-- A minus is binary after an operand and after a closing parenthesis. -/
def grammarTok (prev : ExprTok) : RawTok → ExprTok
  | .tok t => t
  | .eof => .rightParen
  | .minus =>
    match prev with
    | .operand _ | .rightParen => .binary .binaryMinus
    | _ => .unary .unaryMinus

def grammarToks : ExprTok → List RawTok → List ExprTok
  | _, [] => []
  | prev, raw :: raws => grammarTok prev raw :: grammarToks (grammarTok prev raw) raws

def codeToks : ExprTok → List RawTok → List ExprTok
  | _, [] => []
  | prev, raw :: raws => tokType prev raw :: codeToks (tokType prev raw) raws

/-- The tokens `handleExpr` sees: at the end of the text a right parenthesis. -/
def streamToks (prev : ExprTok) (toks : List RawTok × Option RpnErr) : List ExprTok :=
  codeToks prev toks.1 ++ if toks.2 = none then [.rightParen] else []

/-- What a step of the lexer may return on a text of `n` characters. -/
def LexedBelow (n : Nat) (res : Except RpnErr (RawTok × Option Text)) : Prop :=
  (∀ e, res = .error e → e.isFault = false) ∧
    ∀ raw rest, res = .ok (raw, some rest) → raw ≠ .eof → rest.length < n

theorem LexedBelow.error {n : Nat} {e : RpnErr} (he : e.isFault = false) :
    LexedBelow n (.error e) := by
  refine ⟨?_, ?_⟩
  · intro e' heq
    cases heq
    exact he
  · intro raw rest heq
    cases heq

theorem LexedBelow.ok {n : Nat} {raw : RawTok} {rest : Text} (h : rest.length < n) :
    LexedBelow n (.ok (raw, some rest)) := by
  refine ⟨?_, ?_⟩
  · intro e heq
    cases heq
  · intro raw' rest' heq _
    cases heq
    exact h

end SdkTools.Nmake
