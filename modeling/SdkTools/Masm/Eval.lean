import SdkTools.Masm.Lexer

/-!
# The MASM expression evaluator

The recursive descent of `ee_masm.cpp`. `PeekToken` keeps one token of look-ahead in
the state; an error leaves the evaluator as an exception, with the state it was in.
Lookups in the target and address arithmetic are fields of the environment.
-/

namespace SdkTools.Masm

set_option autoImplicit false

inductive EvalFault where
  /-- the exception raised by `EvalError` -/
  | error (code : ULONG)
  /-- the step bound of the model is reached -/
  | fuel
deriving DecidableEq, Repr

def ADDR_NONE : USHORT := 0
def ADDR_V86 : USHORT := 2
def ADDR_16 : USHORT := 4
def ADDR_FLAT : USHORT := 8
def INSTR_POINTER : USHORT := 0x40

/-- The members of the evaluator; `saved` holds `m_SavedClass` and `m_SavedValue`
together with `m_SavedCommand`, and is empty for `INVALID_CLASS`. -/
structure MasmState (Addr : Type) where
  lex : List CHAR
  saved : Option (Token × List CHAR)
  forcePositiveNumber : Bool
  addrExprType : USHORT
  tempAddr : Addr
  preferSymbolValues : Bool

abbrev Eval (Addr : Type) := EStateM EvalFault (MasmState Addr)

structure Env (Addr : Type) where
  config : LexConfig
  /-- the tokens that `lexToken` leaves to the environment -/
  foreignToken : Eval Addr Token
  /-- the value of a register, which may mark an instruction pointer -/
  registerValue : ULONG64 → Eval Addr LONG64
  /-- the memory that `by`, `wo`, `dwo`, `qwo` and `poi` read -/
  readMemory : UnOp → LONG64 → Eval Addr LONG64
  /-- the segment operator -/
  segment : LONG64 → LONG64 → Eval Addr LONG64
  addrAdd : Addr → LONG64 → Addr
  addrSub : Addr → LONG64 → Addr
  /-- shifts by a count outside of 0 to 63, and the quotient that overflows -/
  undefinedShift : ShiftOp → LONG64 → LONG64 → LONG64
  undefinedQuotient : MulOp → LONG64 → LONG64

section Evaluator

variable {Addr : Type} (env : Env Addr)

def evalError {α : Type} (code : ULONG) : Eval Addr α := throw (.error code)

def nextToken : Eval Addr Token := do
  let s ← get
  match lexToken env.config s.forcePositiveNumber s.preferSymbolValues s.lex with
  | some (tok, rest) =>
    set { s with lex := rest }
    return tok
  | none => env.foreignToken

def Token.isPlus (tok : Token) : Bool := tok = .addop .addopPlus

def peekToken : Eval Addr Token := do
  let s ← get
  match s.saved with
  | some (tok, _) => return tok
  | none =>
    let tok ← nextToken env
    modify fun s' => { s' with
      saved := some (tok, s'.lex), lex := s.lex, forcePositiveNumber := tok.isPlus }
    return tok

def acceptToken : Eval Addr Unit :=
  modify fun s =>
    match s.saved with
    | some (_, command) => { s with saved := none, lex := command }
    | none => s

def getTokenSym : Eval Addr Token := do
  let s ← get
  let tok ← match s.saved with
    | some (tok, command) => do
      set { s with saved := none, lex := command }
      return tok
    | none => nextToken env
  match tok with
  | .error code => evalError code
  | tok => return tok

def ofBool64 (b : Bool) : LONG64 := if b then 1 else 0

def applyLog : LogOp → LONG64 → LONG64 → LONG64
  | .logopAnd, a, b => a &&& b
  | .logopOr, a, b => a ||| b
  | .logopXor, a, b => a ^^^ b

def applyLRel : LRelOp → LONG64 → LONG64 → LONG64
  | .lrelopEq, a, b => ofBool64 (a = b)
  | .lrelopNe, a, b => ofBool64 (a ≠ b)
  | .lrelopLt, a, b => ofBool64 (a.slt b)
  | .lrelopGt, a, b => ofBool64 (b.slt a)

def applyShift (o : ShiftOp) (a b : LONG64) : LONG64 :=
  if b < 64 then
    match o with
    | .shiftLeft => a <<< b.toNat
    | .shiftRightLogical => a >>> b.toNat
    | .shiftRightArithmetic => a.sshiftRight b.toNat
  else env.undefinedShift o a b

/-- The additive operator, with the address it applies to when there is one. -/
def applyAdd (addrType1 : USHORT) : AddOp → LONG64 → LONG64 → Eval Addr LONG64
  | .addopPlus, a, b => do
    if addrType1 &&& ~~~INSTR_POINTER ≠ 0 then
      modify fun s => { s with tempAddr := env.addrAdd s.tempAddr b }
    return a + b
  | .addopMinus, a, b => do
    if addrType1 &&& ~~~INSTR_POINTER ≠ 0 then
      modify fun s => { s with tempAddr := env.addrSub s.tempAddr b }
    return a - b

def applyMul : MulOp → LONG64 → LONG64 → Eval Addr LONG64
  | .mulopMult, a, b => return a * b
  | .mulopDivide, a, b =>
    if b = 0 then evalError OPERAND
    else if a = BitVec.intMin 64 ∧ b = -1 then return env.undefinedQuotient .mulopDivide a
    else return a.sdiv b
  | .mulopMod, a, b =>
    if b = 0 then evalError OPERAND
    else if a = BitVec.intMin 64 ∧ b = -1 then return env.undefinedQuotient .mulopMod a
    else return a.srem b
  | .mulopSeg, a, b => env.segment a b

/-- The unary operators other than the memory reads. -/
def applyUn : UnOp → LONG64 → LONG64
  | .unopNot, a => ofBool64 (a = 0)
  | .unopLow, a => a &&& 0xffff
  | .unopHi, a => ((a.setWidth 32) >>> 16).setWidth 64
  | _, a => a

/-- The loop of a level: `accepts` picks its operators, `next` is the level below. The
accumulator is the value, or the value with the address type that goes with it. -/
def levelLoop {ω σ : Type} (accepts : Token → Option ω) (next : Eval Addr LONG64)
    (apply : ω → σ → LONG64 → Eval Addr σ) : Nat → σ → Eval Addr σ
  | 0, _ => throw .fuel
  | fuel + 1, acc => do
    let tok ← peekToken env
    match accepts tok with
    | none => return acc
    | some o =>
      acceptToken
      let value2 ← next
      let acc ← apply o acc value2
      levelLoop accepts next apply fuel acc

def Token.logop? : Token → Option LogOp
  | .logop o => some o
  | _ => none

def Token.lrelop? : Token → Option LRelOp
  | .lrelop o => some o
  | _ => none

def Token.shift? : Token → Option ShiftOp
  | .shift o => some o
  | _ => none

def Token.addop? : Token → Option AddOp
  | .addop o => some o
  | _ => none

def Token.mulop? : Token → Option MulOp
  | .mulop o => some o
  | _ => none

section Levels

variable (startExpr : Eval Addr LONG64) (fuel : Nat)

def getTerm : Eval Addr LONG64 := do
  match ← getTokenSym env with
  | .lparen => do
    let value ← startExpr
    match ← getTokenSym env with
    | .rparen => return value
    | _ => evalError SYNTAX
  | .lbrack => do
    let value ← startExpr
    match ← getTokenSym env with
    | .rbrack => return value
    | _ => evalError SYNTAX
  | .reg index => env.registerValue index
  | .number value => return value
  | .symbol value => return value
  | .line value => return value
  | _ => evalError SYNTAX

/-- Inside parentheses `m_Lex` is advanced by hand, without a token. -/
def getTypedExpression (getMterm : Eval Addr LONG64) : Nat → Eval Addr LONG64
  | 0 => throw .fuel
  | fuel + 1 => do
    modify fun s => { s with lex := peek s.lex }
    if (← get).lex.head? = some (chr '(') then
      modify fun s => { s with lex := s.lex.tail }
      let value ← getTypedExpression getMterm fuel
      modify fun s => { s with lex := peek s.lex }
      if (← get).lex.head? = some (chr ')') then
        modify fun s => { s with lex := s.lex.tail }
        return value
      else evalError SYNTAX
    else
      let preferVal := (← get).preferSymbolValues
      modify fun s => { s with preferSymbolValues := true }
      let value ← getMterm
      modify fun s => { s with preferSymbolValues := preferVal }
      return value

def getMterm : Nat → Eval Addr LONG64
  | 0 => throw .fuel
  | fuel + 1 => do
    match ← peekToken env with
    | .addop o => do
      acceptToken
      let value ← getMterm fuel
      match o with
      | .addopPlus => return value
      | .addopMinus => return -value
    | .unop .unopVal => do
      acceptToken
      getTypedExpression (getMterm fuel) (fuel + 1)
    | .unop o => do
      acceptToken
      let value ← getMterm fuel
      match o with
      | .unopNot => return applyUn .unopNot value
      | .unopLow => return applyUn .unopLow value
      | .unopHi => return applyUn .unopHi value
      | o => do
        let value ← env.readMemory o value
        modify fun s => { s with addrExprType := ADDR_NONE }
        return value
    | _ => getTerm env startExpr

def getAterm : Eval Addr LONG64 := do
  let value1 ← getMterm env startExpr fuel
  levelLoop env Token.mulop? (getMterm env startExpr fuel) (applyMul env) fuel value1

/-- A number plus an address is turned around before it is added. -/
def addTerms (o : AddOp) (acc : USHORT × LONG64) (value2 : LONG64) :
    Eval Addr (USHORT × LONG64) := do
  let addrExprType := (← get).addrExprType
  if acc.1 = ADDR_NONE ∧ addrExprType ≠ ADDR_NONE ∧ o = .addopPlus then
    return (addrExprType, ← applyAdd env addrExprType o value2 acc.2)
  else return (acc.1, ← applyAdd env acc.1 o acc.2 value2)

def getShiftTerm : Eval Addr LONG64 := do
  let value1 ← getAterm env startExpr fuel
  let addrType1 := (← get).addrExprType
  let acc ← levelLoop env Token.addop? (getAterm env startExpr fuel) (addTerms env) fuel
    (addrType1, value1)
  return acc.2

def getLterm : Eval Addr LONG64 := do
  let value1 ← getShiftTerm env startExpr fuel
  levelLoop env Token.shift? (getShiftTerm env startExpr fuel)
    (fun o a b => return applyShift env o a b) fuel value1

def getLRterm : Eval Addr LONG64 := do
  let value1 ← getLterm env startExpr fuel
  levelLoop env Token.lrelop? (getLterm env startExpr fuel)
    (fun o a b => return applyLRel o a b) fuel value1

end Levels

def startExpr : Nat → Eval Addr LONG64
  | 0 => throw .fuel
  | fuel + 1 => do
    let value1 ← getLRterm env (startExpr fuel) fuel
    levelLoop env Token.logop? (getLRterm env (startExpr fuel) fuel)
      (fun o a b => return applyLog o a b) fuel value1

/-- The address type that a prefix of the expression announces. -/
def addrPrefix (c : Option CHAR) : Option USHORT :=
  if c = some (chr '&') then some ADDR_V86
  else if c = some (chr '#') then some ADDR_16
  else if c = some (chr '%') then some ADDR_FLAT
  else none

def getCommonExpression (fuel : Nat) : Eval Addr ULONG64 := do
  modify fun s => { s with saved := none, lex := peek s.lex }
  modify fun s =>
    match addrPrefix s.lex.head? with
    | some ty => { s with lex := s.lex.tail, addrExprType := ty }
    | none => { s with addrExprType := ADDR_NONE }
  modify fun s => { s with lex := peek s.lex }
  startExpr env fuel

def EXPRF_PREFER_SYMBOL_VALUES : ULONG := 1
def EXPRF_SINGLE_TERM : ULONG := 2

/-- Every nested call and every iteration accepts a token. -/
def evalFuel (expr : List CHAR) : Nat := expr.length + 2

/-- `Evaluate`: the value, with the text that is left in `lex`. -/
def evaluate (expr : List CHAR) (flags : ULONG) : Eval Addr ULONG64 := do
  modify fun s => { s with
    lex := expr, preferSymbolValues := flags &&& EXPRF_PREFER_SYMBOL_VALUES ≠ 0 }
  if flags &&& EXPRF_SINGLE_TERM ≠ 0 then
    modify fun s => { s with saved := none }
    getTerm env (startExpr env (evalFuel expr))
  else getCommonExpression env (evalFuel expr)

end Evaluator

end SdkTools.Masm
