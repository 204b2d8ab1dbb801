import Mathlib
import SdkTools.Lib.Digits
import SdkTools.Lib.Operators
import SdkTools.Masm.Eval

/-!
# The expression language of the MASM evaluator

Operators and brackets are read by longest match, reserved words and numbers by
the characters around them. `Complete` is the grammar: the longest expression that
a token sequence starts with, each level associating to the left.
-/

namespace SdkTools.Masm

open Lib.Operators Lib.Digits

set_option autoImplicit false

/-! ### Tokens -/

def symbols : List (List CHAR × Token) :=
  [([chr '+'], .addop .addopPlus), ([chr '-'], .addop .addopMinus),
    ([chr '*'], .mulop .mulopMult), ([chr '/'], .mulop .mulopDivide),
    ([chr '%'], .mulop .mulopMod), ([chr '&'], .logop .logopAnd), ([chr '|'], .logop .logopOr),
    ([chr '^'], .logop .logopXor), ([chr '='], .lrelop .lrelopEq),
    ([chr '=', chr '='], .lrelop .lrelopEq), ([chr '!', chr '='], .lrelop .lrelopNe),
    ([chr '<'], .lrelop .lrelopLt), ([chr '>'], .lrelop .lrelopGt),
    ([chr '<', chr '<'], .shift .shiftLeft), ([chr '>', chr '>'], .shift .shiftRightLogical),
    ([chr '>', chr '>', chr '>'], .shift .shiftRightArithmetic), ([chr '~'], .unop .unopNot),
    ([chr '('], .lparen), ([chr ')'], .rparen), ([chr '['], .lbrack), ([chr ']'], .rbrack)]

def words : List (List CHAR × Token) :=
  [([chr 'm', chr 'o', chr 'd'], .mulop .mulopMod), ([chr 'a', chr 'n', chr 'd'], .logop .logopAnd),
    ([chr 'o', chr 'r'], .logop .logopOr), ([chr 'x', chr 'o', chr 'r'], .logop .logopXor),
    ([chr 'n', chr 'o', chr 't'], .unop .unopNot), ([chr 'h', chr 'i'], .unop .unopHi),
    ([chr 'l', chr 'o', chr 'w'], .unop .unopLow)]

/-- No other symbol that starts here is longer than `s`. -/
def Longest (s t : List CHAR) : Prop := ∀ x ∈ symbols, x.1 <+: s ++ t → x.1.length ≤ s.length

/-- A word or number ends before `t`. -/
def boundary : List CHAR → Bool
  | [] => true
  | c :: t =>
    !isWordChar (tolower c) && c ≠ chr '`' && c ≠ chr ':' &&
      (c ≠ chr '!' || t.head? = some (chr '='))

def radixPrefixes : List (CHAR × Nat) :=
  [(chr 'n', 10), (chr 't', 8), (chr 'x', 16), (chr 'y', 2)]

/-- The radix of a literal, and its digits. -/
def literalDigits (radix : Nat) (s : List CHAR) : Nat × List CHAR :=
  if s.head? = some (chr '0') then
    match radixPrefixes.lookup (tolower (s.getD 1 0)) with
    | some r => (r, s.drop 2)
    | none => (radix, s)
  else (radix, s)

/-- The digits of a hexadecimal literal may be separated by back quotes. -/
def separated (s : List CHAR) : List CHAR := s.filter fun c => c ≠ chr '`'

/-- The value of the literal with digits `d`. For a kernel target the ones of at most 32
bits are sign-extended, unless they have a back quote or follow a plus sign. -/
def numberValue (cfg : LexConfig) (force : Bool) (radix : Nat) (d : List CHAR) : ULONG64 :=
  let value := digitsValue radix (separated d)
  if cfg.kernelTarget ∧ ¬ force ∧ separated d = d ∧ value < 2 ^ 32 then
    signExtend32 (BitVec.ofNat 64 value)
  else BitVec.ofNat 64 value

/-- The value of a literal that fits 64 bits. -/
def literalValue (cfg : LexConfig) (force : Bool) (s : List CHAR) : Option ULONG64 :=
  let radix := (literalDigits cfg.defaultRadix.base.toNat s).1
  let d := (literalDigits cfg.defaultRadix.base.toNat s).2
  if d ≠ [] ∧ (separated d).all (isDigit radix) ∧ digitsValue radix (separated d) < 2 ^ 64 ∧
      (separated d = d ∨ radix = 16 ∧ d.head? ≠ some (chr '`')) then
    some (numberValue cfg force radix d)
  else none

/-- `tok` is the first token of a text without leading white space; `force` says
whether the token before it is a plus sign. -/
inductive Reads (cfg : LexConfig) (force : Bool) : List CHAR → Token → List CHAR → Prop
  | symbol {s t : List CHAR} {tok : Token} : (s, tok) ∈ symbols → Longest s t →
      Reads cfg force (s ++ t) tok t
  | word {s t : List CHAR} {tok : Token} : (s.map tolower, tok) ∈ words → boundary t = true →
      Reads cfg force (s ++ t) tok t
  | literal {s t : List CHAR} {v : ULONG64} : literalValue cfg force s = some v →
      boundary t = true → Reads cfg force (s ++ t) (.number v) t

def White (w : List CHAR) : Prop :=
  ∀ c ∈ w, c = chr ' ' ∨ c = chr '\t' ∨ c = chr '\r' ∨ c = chr '\n'

/-- Reading tokens moves from one place of the text to a later one. -/
inductive ReadsTo (cfg : LexConfig) : Bool → List CHAR → List Token → Bool → List CHAR → Prop
  | nil {force : Bool} {t : List CHAR} : ReadsTo cfg force t [] force t
  | cons {force force' : Bool} {w t t' t'' : List CHAR} {tok : Token} {ts : List Token} :
      White w → Reads cfg force t tok t' → ReadsTo cfg tok.isPlus t' ts force' t'' →
      ReadsTo cfg force (w ++ t) (tok :: ts) force' t''

def AtEnd (t : List CHAR) : Prop :=
  ∃ w r, White w ∧ t = w ++ r ∧ (r = [] ∨ r.head? = some 0 ∨ r.head? = some (chr ';'))

/-- The tokens of a text up to its end of line. -/
def Spells (cfg : LexConfig) (force : Bool) (t : List CHAR) (ts : List Token) : Prop :=
  ∃ force' t', ReadsTo cfg force t ts force' t' ∧ AtEnd t'

/-! ### The grammar -/

inductive Bracket where
  | paren | brack
deriving DecidableEq

inductive Unary where
  | plus | minus | not | low | hi
deriving DecidableEq

inductive Binary where
  | logop (o : LogOp)
  | lrelop (o : LRelOp)
  | shift (o : ShiftOp)
  | addop (o : AddOp)
  | mult | divide | mod
deriving DecidableEq

def Unary.token : Unary → Token
  | plus => .addop .addopPlus
  | minus => .addop .addopMinus
  | not => .unop .unopNot
  | low => .unop .unopLow
  | hi => .unop .unopHi

def Binary.token : Binary → Token
  | logop o => .logop o
  | lrelop o => .lrelop o
  | shift o => .shift o
  | addop o => .addop o
  | mult => .mulop .mulopMult
  | divide => .mulop .mulopDivide
  | mod => .mulop .mulopMod

def Binary.level : Binary → Nat
  | logop _ => 1
  | lrelop _ => 2
  | shift _ => 3
  | addop _ => 4
  | _ => 5

def spelling : Spelling LONG64 Bracket Unary Binary Token where
  atom := .number
  unary := Unary.token
  binary := Binary.token
  lpar
    | .paren => .lparen
    | .brack => .lbrack
  rpar
    | .paren => .rparen
    | .brack => .rbrack

theorem level_le (b : Binary) : b.level ≤ 5 := by
  cases b <;> simp [Binary.level]

/-- Unary operators bind tighter than all binary ones. -/
def levels : Levels Unary Binary where
  unary _ := 6
  binary := Binary.level
  distinct _ b := by
    have := level_le b
    omega

abbrev Expr := Ast LONG64 Bracket Unary Binary

/-- The tokens after an expression cannot continue it at level `k` or tighter. -/
def Stops (k : Nat) (rest : List Token) : Prop :=
  ∀ b : Binary, k ≤ b.level → rest.head? ≠ some b.token

/-- `ts` starts with the expression `e` of level `k`, and `rest` is what remains. -/
structure CompleteAt (k : Nat) (ts : List Token) (e : Expr) (rest : List Token) : Prop where
  tokens : ts = e.yield spelling ++ rest
  grouped : e.Grouped levels fun _ => true
  level : ∀ q ∈ e.leftEdge levels, k ≤ q
  stops : Stops k rest

abbrev Complete := CompleteAt 1

/-! ### Values -/

def Unary.apply : Unary → LONG64 → LONG64
  | plus, a => a
  | minus, a => -a
  | not, a => if a = 0 then 1 else 0
  | low, a => a &&& 0xffff
  | hi, a => (a &&& 0xffffffff) >>> 16

variable {Addr : Type} (env : Env Addr)

/-- The value of a binary operator, which a zero divisor does not have. -/
def Binary.apply : Binary → LONG64 → LONG64 → Option LONG64
  | logop .logopAnd, a, b => some (a &&& b)
  | logop .logopOr, a, b => some (a ||| b)
  | logop .logopXor, a, b => some (a ^^^ b)
  | lrelop .lrelopEq, a, b => some (if a = b then 1 else 0)
  | lrelop .lrelopNe, a, b => some (if a = b then 0 else 1)
  | lrelop .lrelopLt, a, b => some (if a.toInt < b.toInt then 1 else 0)
  | lrelop .lrelopGt, a, b => some (if b.toInt < a.toInt then 1 else 0)
  | shift o, a, b =>
    some (if 64 ≤ b.toNat then env.undefinedShift o a b else
      match o with
      | .shiftLeft => BitVec.ofNat 64 (a.toNat * 2 ^ b.toNat)
      | .shiftRightLogical => BitVec.ofNat 64 (a.toNat / 2 ^ b.toNat)
      | .shiftRightArithmetic => BitVec.ofInt 64 (a.toInt / 2 ^ b.toNat))
  | addop .addopPlus, a, b => some (a + b)
  | addop .addopMinus, a, b => some (a - b)
  | mult, a, b => some (a * b)
  | divide, a, b =>
    if b = 0 then none
    else if a.toInt = -2 ^ 63 ∧ b.toInt = -1 then some (env.undefinedQuotient .mulopDivide a)
    else some (BitVec.ofInt 64 (a.toInt.tdiv b.toInt))
  | mod, a, b =>
    if b = 0 then none
    else if a.toInt = -2 ^ 63 ∧ b.toInt = -1 then some (env.undefinedQuotient .mulopMod a)
    else some (BitVec.ofInt 64 (a.toInt.tmod b.toInt))

def Expr.value (e : Expr) : Option LONG64 :=
  e.eval some (fun u x => x.map u.apply) fun b x y => x.bind fun a => y.bind (b.apply env a)

end SdkTools.Masm
