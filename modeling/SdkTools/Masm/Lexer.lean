import SdkTools.Types

/-!
# The lexer of the MASM expression evaluator

`NextToken` of `ee_masm.cpp` on texts: end of line, operators, brackets, numbers
and reserved words. Symbols, registers, source lines, nested evaluators and
character constants are left to the environment; there `lexToken` gives `none`.
-/

namespace SdkTools.Masm

set_option autoImplicit false

inductive AddOp where
  | addopPlus | addopMinus
deriving DecidableEq, Repr

inductive MulOp where
  | mulopMult | mulopDivide | mulopMod | mulopSeg
deriving DecidableEq, Repr

inductive LogOp where
  | logopAnd | logopOr | logopXor
deriving DecidableEq, Repr

inductive LRelOp where
  | lrelopEq | lrelopNe | lrelopLt | lrelopGt
deriving DecidableEq, Repr

inductive ShiftOp where
  | shiftLeft | shiftRightLogical | shiftRightArithmetic
deriving DecidableEq, Repr

inductive UnOp where
  | unopNot | unopBy | unopWo | unopDwo | unopPoi | unopLow | unopHi | unopQwo | unopVal
deriving DecidableEq, Repr

/-- A token class with its value. -/
inductive Token where
  | eol
  | addop (o : AddOp)
  | mulop (o : MulOp)
  | logop (o : LogOp)
  | lrelop (o : LRelOp)
  | unop (o : UnOp)
  | shift (o : ShiftOp)
  | lparen | rparen | lbrack | rbrack
  | reg (value : ULONG64)
  | number (value : ULONG64)
  | symbol (value : ULONG64)
  | line (value : ULONG64)
  | error (code : ULONG)
deriving DecidableEq, Repr

def OVERFLOW : ULONG := 0x1000
def SYNTAX : ULONG := 0x1001
def OPERAND : ULONG := 0x100b

/-- The values that the radix command gives to `g_DefaultRadix`. -/
inductive DefaultRadix where
  | octal | decimal | hexadecimal
deriving DecidableEq, Repr

def DefaultRadix.base : DefaultRadix → ULONG64
  | octal => 8
  | decimal => 10
  | hexadecimal => 16

/-- What the lexer reads of the debugger's state. -/
structure LexConfig where
  defaultRadix : DefaultRadix
  /-- `IS_KERNEL_TARGET` -/
  kernelTarget : Bool
  allowUnresolvedSymbols : Bool

def tolower (c : CHAR) : CHAR := if chr 'A' ≤ c ∧ c ≤ chr 'Z' then c + 0x20 else c

/-- `Peek`: the text after leading white space. -/
def peek : List CHAR → List CHAR
  | [] => []
  | c :: rest =>
    if c = chr ' ' ∨ c = chr '\t' ∨ c = chr '\r' ∨ c = chr '\n' then peek rest else c :: rest

def singleOperators : List (CHAR × Token) :=
  [(chr '+', .addop .addopPlus), (chr '-', .addop .addopMinus), (chr '*', .mulop .mulopMult),
    (chr '/', .mulop .mulopDivide), (chr '%', .mulop .mulopMod), (chr '&', .logop .logopAnd),
    (chr '|', .logop .logopOr), (chr '^', .logop .logopXor), (chr '~', .unop .unopNot),
    (chr '(', .lparen), (chr ')', .rparen), (chr '[', .lbrack), (chr ']', .rbrack),
    (chr ':', .mulop .mulopSeg)]

/-- The operators that start with `c`, after which `rest` follows. -/
def operatorToken (c : CHAR) (rest : List CHAR) : Option (Token × List CHAR) :=
  match singleOperators.lookup c with
  | some tok => some (tok, rest)
  | none =>
    if c = chr '=' then
      if rest.head? = some (chr '=') then some (.lrelop .lrelopEq, rest.tail)
      else some (.lrelop .lrelopEq, rest)
    else if c = chr '>' then
      if rest.head? = some (chr '>') then
        if rest.tail.head? = some (chr '>') then
          some (.shift .shiftRightArithmetic, rest.tail.tail)
        else some (.shift .shiftRightLogical, rest.tail)
      else some (.lrelop .lrelopGt, rest)
    else if c = chr '<' then
      if rest.head? = some (chr '<') then some (.shift .shiftLeft, rest.tail)
      else some (.lrelop .lrelopLt, rest)
    else if c = chr '!' ∧ rest.head? = some (chr '=') then some (.lrelop .lrelopNe, rest.tail)
    else none

def g_Reserved : List (List CHAR × Token) :=
  [([chr 'o', chr 'r'], .logop .logopOr), ([chr 'b', chr 'y'], .unop .unopBy),
    ([chr 'w', chr 'o'], .unop .unopWo), ([chr 'd', chr 'w', chr 'o'], .unop .unopDwo),
    ([chr 'q', chr 'w', chr 'o'], .unop .unopQwo), ([chr 'h', chr 'i'], .unop .unopHi),
    ([chr 'm', chr 'o', chr 'd'], .mulop .mulopMod),
    ([chr 'x', chr 'o', chr 'r'], .logop .logopXor),
    ([chr 'a', chr 'n', chr 'd'], .logop .logopAnd),
    ([chr 'p', chr 'o', chr 'i'], .unop .unopPoi), ([chr 'n', chr 'o', chr 't'], .unop .unopNot),
    ([chr 'l', chr 'o', chr 'w'], .unop .unopLow), ([chr 'v', chr 'a', chr 'l'], .unop .unopVal)]

/-- The characters of words, in lower case. -/
def isWordChar (c : CHAR) : Bool :=
  (chr 'a' ≤ c ∧ c ≤ chr 'z') ∨ (chr '0' ≤ c ∧ c ≤ chr '9') ∨ c = chr '_' ∨ c = chr '$' ∨
    c = chr '~'

/-- The scan for a module name: whether a double colon was met, and where it stops. -/
def scanModule (wasDigit : Bool) : List CHAR → Bool × List CHAR
  | [] => (false, [])
  | c :: rest =>
    let l := tolower c
    if isWordChar l ∨ (wasDigit = true ∧ l = chr '`') then
      scanModule ((chr '0' ≤ l ∧ l ≤ chr '9') ∨ (chr 'a' ≤ l ∧ l ≤ chr 'f')) rest
    else if l = chr ':' ∧ rest.head? = some (chr ':') then (true, c :: rest)
    else (false, c :: rest)

/-- A `!` that does not start `!=` follows the word. -/
def isModuleName (text : List CHAR) : Bool :=
  let stop := (scanModule false text).2
  stop.length < text.length ∧ stop.head? = some (chr '!') ∧ stop.tail.head? ≠ some (chr '=')

/-- The variables of the loop over the characters of a word. -/
structure WordScan where
  value : ULONG64
  isNumber : Bool
  isDigit : Bool
  allowSignExtension : Bool
  errNumber : ULONG
  symbol : List CHAR
deriving DecidableEq

def isBaseDigit (base : ULONG64) (l : CHAR) : Bool :=
  let limit1 := if base = 2 then chr '1' else if base = 8 then chr '7' else chr '9'
  let limit2 := if base = 16 then chr 'f' else chr '9'
  (chr '0' ≤ l ∧ l ≤ limit1) ∨ (chr 'a' ≤ l ∧ l ≤ limit2)

def digitValue (l : CHAR) : ULONG64 :=
  let d := l - chr '0'
  (if d > 9 then d - (chr 'a' - chr '0' - 10) else d).setWidth 64

/-- One digit is accumulated; wrapping is taken for overflow. -/
def WordScan.digit (w : WordScan) (base : ULONG64) (l : CHAR) : WordScan :=
  let tmpValue := w.value * base
  let value := tmpValue + digitValue l
  { w with
    isDigit := true
    value
    errNumber := if tmpValue < w.value ∨ value < tmpValue then OVERFLOW else w.errNumber }

def WordScan.char (w : WordScan) (base : ULONG64) (isSymbol : Bool) (c : CHAR) : WordScan :=
  let l := tolower c
  let w :=
    if w.isNumber then
      if isBaseDigit base l then w.digit base l
      else if w.isDigit ∧ l = chr '`' then { w with allowSignExtension := false }
      else { w with isNumber := false, errNumber := SYNTAX }
    else w
  if isSymbol then { w with symbol := w.symbol ++ [c] } else w

/-- The loop over the characters of a word that contains no double colon. -/
def scanWord (base : ULONG64) (isSymbol : Bool) : WordScan → List CHAR → WordScan × List CHAR
  | w, [] => (w, [])
  | w, c :: rest =>
    if isWordChar (tolower c) ∨ (w.isDigit = true ∧ base = 16 ∧ tolower c = chr '`') then
      scanWord base isSymbol (w.char base isSymbol c) rest
    else (w, c :: rest)

/-- Where a number starts: its base, its characters, and whether a digit was seen. -/
def numberStart (defaultRadix : ULONG64) : List CHAR → ULONG64 × List CHAR × Bool
  | z :: p :: rest =>
    if z = chr '0' then
      if tolower p = chr 'n' then (10, rest, true)
      else if tolower p = chr 't' then (8, rest, true)
      else if tolower p = chr 'x' then (16, rest, true)
      else if tolower p = chr 'y' then (2, rest, true)
      else (defaultRadix, p :: rest, true)
    else (defaultRadix, z :: p :: rest, false)
  | text => if text = [chr '0'] then (defaultRadix, [], true) else (defaultRadix, text, false)

def signExtend32 (value : ULONG64) : ULONG64 := (value.setWidth 32).signExtend 64

/-- The tail of `NextToken`, once the word has been scanned. -/
def wordToken (cfg : LexConfig) (forcePositive isSymbol : Bool) (w : WordScan)
    (rest : List CHAR) : Option (Token × List CHAR) :=
  if isSymbol ∧ rest.head? = some (chr ':') then none
  else if w.isNumber ∧ w.errNumber = 0 ∧ w.isDigit then
    if w.allowSignExtension ∧ ¬ forcePositive ∧ w.value >>> 32 = 0 then
      some (.number (signExtend32 w.value), rest)
    else some (.number w.value, rest)
  else if isSymbol then
    if w.symbol = [] then some (.error SYNTAX, rest)
    else (g_Reserved.lookup (w.symbol.map tolower)).map fun tok => (tok, rest)
  else if cfg.allowUnresolvedSymbols then none
  else some (.error w.errNumber, rest)

/-- A word or number, starting with the first character of a nonempty text. -/
def lexWord (cfg : LexConfig) (forcePositive : Bool) (text : List CHAR) :
    Option (Token × List CHAR) :=
  let first := tolower (text.headD 0)
  if (scanModule false text).1 then none
  else
    let isNumber := !isModuleName text
    let startsNumber := isNumber && (chr '0' ≤ first ∧ first ≤ chr '9')
    let start :=
      if startsNumber then numberStart cfg.defaultRadix.base text
      else (cfg.defaultRadix.base, text, false)
    let isNumber := isNumber &&
      (startsNumber || ((chr 'a' ≤ first ∧ first ≤ chr 'f') ∧ cfg.defaultRadix = .hexadecimal))
    let w := scanWord start.1 (!startsNumber)
      { value := 0, isNumber, isDigit := start.2.2, allowSignExtension := cfg.kernelTarget,
        errNumber := 0, symbol := [] } start.2.1
    wordToken cfg forcePositive (!startsNumber) w.1 w.2

/-- The characters whose tokens the environment supplies. -/
def isForeign (c : CHAR) : Bool :=
  c = chr '.' ∨ c = chr '`' ∨ c = chr '@' ∨ c = chr '!' ∨ c = chr '\''

/-- The next token of a text, and the text after it. -/
def lexToken (cfg : LexConfig) (forcePositive preferSymbolValues : Bool) (text : List CHAR) :
    Option (Token × List CHAR) :=
  match peek text with
  | [] => some (.eol, [])
  | c :: rest =>
    if c = 0 ∨ c = chr ';' then some (.eol, c :: rest)
    else
      match operatorToken c rest with
      | some r => some r
      | none =>
        if isForeign c ∨ preferSymbolValues = true then none
        else lexWord cfg forcePositive (c :: rest)

end SdkTools.Masm
