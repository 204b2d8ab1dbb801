import Mathlib
import SdkTools.Lib.Infix
import SdkTools.Nmake.Directives

/-!
# The expressions of `!IF`

`rpn.cpp` of NMAKE: the tokens of an expression, their conversion to reverse
Polish order on one stack, and the evaluation on the same stack. Reading an
element below or above the stack, and reading past the end of the text, are
errors of the model.
-/

namespace SdkTools.Nmake

set_option autoImplicit false

open Lib.Infix

def TEMPSTACKSIZE : Nat := 512

def LISTSIZE : Nat := 1024

inductive BinOp where
  | logicalOr | logicalAnd | bitOr | bitXor | bitAnd | notEqual | equal | greaterThan | lessThan
  | greaterEq | lessEq | shftRight | shftLeft | binaryMinus | add | modulus | divide | multiply
deriving DecidableEq, Repr

inductive UnOp where
  | unaryMinus | complement | logicalNot
deriving DecidableEq, Repr

inductive Operand where
  | integer (n : Int)
  | str (s : Text)
  | progInvocStr (s : Text)
deriving DecidableEq, Repr

abbrev ExprTok := Tok Operand BinOp UnOp

abbrev IfExpr := Expr Operand BinOp UnOp

inductive RpnErr where
  | invalidExpr | missingEndChar | constTooBig | exprTooLong | badOpTypes | divideByZero
  | argument | undefined | belowStack | aboveStack | pastEnd | fuel
deriving DecidableEq, Repr

/-- What the code must never do. -/
def RpnErr.isFault : RpnErr → Bool
  | .belowStack | .aboveStack | .pastEnd | .fuel => true
  | _ => false

/-- The parts of the program the expressions rest on; `bits` is the width of
`INT_PTR`. -/
structure ExprEnv where
  bits : Nat
  /-- `handleDefines`, `none` when it ends in an error -/
  handleDefines : Text → Option Bool
  /-- `handleExists`, `none` when it ends in an error -/
  handleExists : Text → Option Bool
  /-- the return code of a program invocation, after the invocations before it -/
  execLine : List Text → Text → Int

/-! ## The tables -/

def BinOp.prec : BinOp → Nat
  | .logicalOr => 1
  | .logicalAnd => 2
  | .bitOr => 3
  | .bitXor => 4
  | .bitAnd => 5
  | .notEqual | .equal => 6
  | .greaterThan | .lessThan | .greaterEq | .lessEq => 7
  | .shftRight | .shftLeft => 8
  | .binaryMinus | .add => 9
  | .modulus | .divide | .multiply => 10

/-- The level of the unary operators. -/
def unaryPrec : Nat := 11

def tokTable : List (String × ExprTok) :=
  [("(", .leftParen), (")", .rightParen), ("*", .binary .multiply), ("/", .binary .divide),
   ("%", .binary .modulus), ("+", .binary .add), ("<<", .binary .shftLeft),
   (">>", .binary .shftRight), ("<=", .binary .lessEq), (">=", .binary .greaterEq),
   ("<", .binary .lessThan), (">", .binary .greaterThan), ("==", .binary .equal),
   ("!=", .binary .notEqual), ("&&", .binary .logicalAnd), ("||", .binary .logicalOr),
   ("&", .binary .bitAnd), ("|", .binary .bitOr), ("^^", .binary .bitXor),
   ("~", .unary .complement), ("!", .unary .logicalNot)]

def isOperatorChar (c : Char) : Bool := c ∈ "!%&()*+/<=>^|~".toList

/-! ## Tokens -/

/-- The text after a token string of the table. -/
def matchTok : Text → Text → Option Text
  | [], text => some text
  | _ :: _, [] => none
  | c :: tok, d :: text => if c = d then matchTok tok text else none

def isSpace (c : Char) : Bool := c ∈ [' ', '\t', '\n', '\r', '\x0b', '\x0c']

/-- A quoted string after its opening quote; a doubled quote does not end it. -/
def getEndQuote : Text → Option (Text × Text)
  | [] => none
  | '"' :: '"' :: text => (getEndQuote text).map fun p => ('"' :: '"' :: p.1, p.2)
  | '"' :: text => some ([], text)
  | c :: text => (getEndQuote text).map fun p => (c :: p.1, p.2)

/-- A program invocation after its opening bracket. -/
def getEndBracket : Text → Option (Text × Text)
  | [] => none
  | '^' :: ']' :: text => (getEndBracket text).map fun p => (']' :: p.1, p.2)
  | ']' :: text => some ([], text)
  | c :: text => (getEndBracket text).map fun p => (c :: p.1, p.2)

def digitVal (c : Char) : Nat :=
  if '0' ≤ c ∧ c ≤ '9' then c.toNat - '0'.toNat
  else if 'a' ≤ c ∧ c ≤ 'z' then c.toNat - 'a'.toNat + 10
  else if 'A' ≤ c ∧ c ≤ 'Z' then c.toNat - 'A'.toNat + 10
  else 36

/-- The digits at the start of a text: their value after `n`, and what follows. -/
def digitsFrom (radix : Nat) : Nat → Text → Nat × Text
  | n, [] => (n, [])
  | n, c :: text =>
    if digitVal c < radix then digitsFrom radix (n * radix + digitVal c) text else (n, c :: text)

/-- `strtol` with base 0, on a text that begins with a digit. -/
def strtol : Text → Nat × Text
  | '0' :: x :: d :: text =>
    if (x = 'x' ∨ x = 'X') ∧ digitVal d < 16 then digitsFrom 16 0 (d :: text)
    else digitsFrom 8 0 (x :: d :: text)
  | '0' :: text => digitsFrom 8 0 text
  | text => digitsFrom 10 0 text

/-- A token of the text; the minus sign is not yet binary or unary. -/
inductive RawTok where
  | tok (t : ExprTok)
  | minus
  | eof
deriving DecidableEq, Repr

/-- The argument in parentheses of a word; without a right parenthesis the text
after it lies past the end. -/
def wordArgument (f : Text → Option Bool) (text : Text) : Except RpnErr (RawTok × Option Text) :=
  match text.dropWhile (· != '(') with
  | [] => .error .invalidExpr
  | _ :: text =>
    let ptr := text.takeWhile (· != ')')
    let rest := match text.dropWhile (· != ')') with
      | [] => none
      | _ :: rest => some rest
    match f ptr with
    | none => .error .argument
    | some b => .ok (.tok (.operand (.integer (if b then 1 else 0))), rest)

def isWordAt (keyword : String) (text : Text) : Bool :=
  (text.take keyword.length).map Char.toUpper == keyword.toList

def lexWord (env : ExprEnv) : Text → Except RpnErr (RawTok × Option Text)
  | [] => .ok (.eof, some [])
  | c :: text =>
    if c = '-' then .ok (.minus, some text)
    else if c = '"' then
      match getEndQuote text with
      | none => .error .missingEndChar
      | some (s, rest) => .ok (.tok (.operand (.str s)), some rest)
    else if c = '[' then
      match getEndBracket text with
      | none => .error .missingEndChar
      | some (s, rest) => .ok (.tok (.operand (.progInvocStr s)), some rest)
    else if '0' ≤ c ∧ c ≤ '9' then
      let (n, rest) := strtol (c :: text)
      if n ≥ 2 ^ 31 then .error .constTooBig
      else
        let rest := match rest with
          | l :: rest' => if l = 'l' ∨ l = 'L' then rest' else rest
          | [] => []
        .ok (.tok (.operand (.integer n)), some rest)
    else if isWordAt "DEFINED" (c :: text) then wordArgument env.handleDefines (c :: text)
    else if isWordAt "EXIST" (c :: text) then wordArgument env.handleExists (c :: text)
    else .error .invalidExpr

/-- The text without the white space `getTok` skips. -/
def skipSpaces : Text → Text
  | c :: text => if c = ' ' ∨ c = '\t' then (c :: text).dropWhile isSpace else c :: text
  | [] => []

def lookupTok (text : Text) : Option (ExprTok × Text) :=
  match text with
  | [] => none
  | c :: _ =>
    if isOperatorChar c then
      tokTable.findSome? fun p => (matchTok p.1.toList text).map fun rest => (p.2, rest)
    else none

/-- The next token of a text and the text after it. -/
def lexTok (env : ExprEnv) (text : Text) : Except RpnErr (RawTok × Option Text) :=
  match lookupTok (skipSpaces text) with
  | some (t, rest) => .ok (.tok t, some rest)
  | none => lexWord env (skipSpaces text)

/-- The type of a token: a minus is binary after an integer only. -/
def tokType (prevTok : ExprTok) : RawTok → ExprTok
  | .tok t => t
  | .eof => .rightParen
  | .minus =>
    match prevTok with
    | .operand (.integer _) => .binary .binaryMinus
    | _ => .unary .unaryMinus

/-- `tempStack`, its top first, and `rpnList`. -/
structure Conv where
  stack : List ExprTok
  list : List ExprTok
deriving DecidableEq, Repr

inductive Value where
  | int (n : Int)
  | str (s : Text)
deriving DecidableEq, Repr

/-- The programs invoked and how the evaluation ends. -/
abbrev RpnResult (α : Type) := List Text × Except RpnErr α

end SdkTools.Nmake
