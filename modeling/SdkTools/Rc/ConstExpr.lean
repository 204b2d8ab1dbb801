import SdkTools.Lib.EState

/-!
# Constant expressions of `#if`

The recursive descent of `p0expr.c`, which reads its tokens with `nextis` of `p0prepro.c`.
A `long` has 32 bits. What the language leaves undefined (a shift by a count outside 0 to
31, the least number divided by -1, an uninitialised variable) comes from parameters.
-/

namespace SdkTools.Rc

set_option autoImplicit false

abbrev LONG := BitVec 32

inductive Punct where
  | quest | colon | oror | andand | or | xor | and | equals | noteq
  | lt | gt | lteq | gteq | rshift | lshift | plus | minus | mult | div | mod
  | exclaim | tilde | lparen | rparen
  | other (t : Nat)
deriving DecidableEq

/-- What `yylex` gives: an integral constant with its value (an identifier counts as one,
with the value of `do_defined`), a floating one, or another token. -/
inductive Tok where
  | constant (v : LONG)
  | real
  | punct (p : Punct)
deriving DecidableEq

/-- A token as `nextis` compares it. -/
inductive Basic where
  | cinteger
  | punct (p : Punct)
deriving DecidableEq

inductive Fatal where
  /-- 1012: missing parenthesis -/
  | missing (p : Punct)
  /-- 1017: invalid integer constant expression -/
  | invalid
  /-- 4012 -/
  | unclosed
  | fuel
deriving DecidableEq

structure Lexer where
  /-- `none` is `L_NOTOKEN` -/
  Currtok : Option Basic
  Currval : LONG
  Parencnt : Int
  /-- the tokens up to the end of the line -/
  input : List Tok

abbrev Parser := EStateM Fatal Lexer

def nextis (tok : Basic) : Parser Bool := fun s =>
  match s.Currtok with
  | some t =>
    if tok = t then .ok true ⟨none, s.Currval, s.Parencnt, s.input⟩ else .ok false s
  | none =>
    match s.input with
    | [] => .ok false s
    | .constant v :: input =>
      if tok = .cinteger then .ok true ⟨none, v, s.Parencnt, input⟩
      else .ok false ⟨some .cinteger, v, s.Parencnt, input⟩
    | .real :: _ => .error .invalid s
    | .punct p :: input =>
      if tok = .punct p then .ok true ⟨none, s.Currval, s.Parencnt, input⟩
      else .ok false ⟨some (.punct p), s.Currval, s.Parencnt, input⟩

/-! ## Operators -/

inductive BinOp where
  | oror | andand | or | xor | and | equals | noteq
  | lt | gt | lteq | gteq | rshift | lshift | plus | minus | mult | div | mod
deriving DecidableEq

def BinOp.token : BinOp → Punct
  | .oror => .oror
  | .andand => .andand
  | .or => .or
  | .xor => .xor
  | .and => .and
  | .equals => .equals
  | .noteq => .noteq
  | .lt => .lt
  | .gt => .gt
  | .lteq => .lteq
  | .gteq => .gteq
  | .rshift => .rshift
  | .lshift => .lshift
  | .plus => .plus
  | .minus => .minus
  | .mult => .mult
  | .div => .div
  | .mod => .mod

def ofBool (b : Bool) : LONG := if b then 1 else 0

section

variable (undefined : BinOp → LONG → LONG → LONG)

/-- The value of an operation on `val` and the operand read after it. -/
def BinOp.apply : BinOp → LONG → LONG → LONG
  | .oror, val, r => ofBool (r ≠ 0 || val ≠ 0)
  | .andand, val, r => ofBool (r ≠ 0 && val ≠ 0)
  | .or, val, r => val ||| r
  | .xor, val, r => val ^^^ r
  | .and, val, r => val &&& r
  | .equals, val, r => ofBool (val = r)
  | .noteq, val, r => ofBool (val ≠ r)
  | .lt, val, r => ofBool (val.slt r)
  | .gt, val, r => ofBool (r.slt val)
  | .lteq, val, r => ofBool (val.sle r)
  | .gteq, val, r => ofBool (r.sle val)
  | .rshift, val, r =>
    if r.toNat < 32 then val.sshiftRight r.toNat else undefined .rshift val r
  | .lshift, val, r => if r.toNat < 32 then val <<< r.toNat else undefined .lshift val r
  | .plus, val, r => val + r
  | .minus, val, r => val - r
  | .mult, val, r => val * r
  | .div, val, r =>
    if r ≠ 0 then
      if val = BitVec.intMin 32 ∧ r = -1 then undefined .div val r else val.sdiv r
    else r
  | .mod, val, r =>
    if r ≠ 0 then
      if val = BitVec.intMin 32 ∧ r = -1 then undefined .mod val r else val.srem r
    else 0

/-! ## The levels -/

/-- The first of the operators whose token comes next, which is used up. -/
def nextOp : List BinOp → Parser (Option BinOp)
  | [] => pure none
  | o :: ops => do
    if ← nextis (.punct o.token) then pure (some o) else nextOp ops

/-- A loop over operands; `n` bounds the number of operators. -/
def operands (ops : List BinOp) (next : Parser LONG) : Nat → LONG → Parser LONG
  | 0, _ => throw .fuel
  | n + 1, val => do
    match ← nextOp ops with
    | none => pure val
    | some o => do
      let r ← next
      operands ops next n (o.apply undefined val r)

/-- A level whose operators repeat. -/
def repeated (n : Nat) (ops : List BinOp) (next : Parser LONG) : Parser LONG := do
  let val ← next
  operands undefined ops next n val

/-- A level with at most one operator. -/
def single (ops : List BinOp) (next : Parser LONG) : Parser LONG := do
  let val ← next
  match ← nextOp ops with
  | none => pure val
  | some o => do
    let r ← next
    pure (o.apply undefined val r)

section Levels

variable (n : Nat) (constexpr : Parser LONG)

def constant : Parser LONG := do
  if ← nextis (.punct .lparen) then
    modify fun s => ⟨s.Currtok, s.Currval, s.Parencnt + 1, s.input⟩
    let val ← constexpr
    if ← nextis (.punct .rparen) then
      modify fun s => ⟨s.Currtok, s.Currval, s.Parencnt - 1, s.input⟩
      pure val
    else throw (.missing .rparen)
  else if ← nextis .cinteger then
    let s ← get
    pure s.Currval
  else throw .invalid

def prim : Parser LONG := do
  if ← nextis (.punct .exclaim) then
    let val ← constant constexpr
    pure (ofBool (val = 0))
  else if ← nextis (.punct .tilde) then
    let val ← constant constexpr
    pure (~~~val)
  else if ← nextis (.punct .minus) then
    let val ← constant constexpr
    pure (-val)
  else constant constexpr

def mult : Parser LONG := repeated undefined n [.mult, .div, .mod] (prim constexpr)

def plus : Parser LONG := repeated undefined n [.plus, .minus] (mult undefined n constexpr)

def shift : Parser LONG := single undefined [.rshift, .lshift] (plus undefined n constexpr)

def relation : Parser LONG :=
  single undefined [.lt, .gt, .lteq, .gteq] (shift undefined n constexpr)

def eqset : Parser LONG := single undefined [.equals, .noteq] (relation undefined n constexpr)

def and : Parser LONG := repeated undefined n [.and] (eqset undefined n constexpr)

def xor : Parser LONG := repeated undefined n [.xor] (and undefined n constexpr)

def or : Parser LONG := repeated undefined n [.or] (xor undefined n constexpr)

def andif : Parser LONG := repeated undefined n [.andand] (or undefined n constexpr)

def orelse : Parser LONG := repeated undefined n [.oror] (andif undefined n constexpr)

end Levels

/-- `val2` is `uninitialised` where there is no colon. -/
def constexpr (uninitialised : LONG) : Nat → Parser LONG
  | 0 => throw .fuel
  | n + 1 => do
    let val ← orelse undefined n (constexpr uninitialised n)
    if ← nextis (.punct .quest) then
      let val1 ← orelse undefined n (constexpr uninitialised n)
      if ← nextis (.punct .colon) then
        let val2 ← orelse undefined n (constexpr uninitialised n)
        pure (if val ≠ 0 then val1 else val2)
      else pure (if val ≠ 0 then val1 else uninitialised)
    else pure val

/-- The value, and whether the warning 4067 is given. -/
def doConstexpr (uninitialised : LONG) (input : List Tok) : Except Fatal (LONG × Bool) :=
  match constexpr undefined uninitialised (input.length + 2) ⟨none, 0, 0, input⟩ with
  | .error e _ => .error e
  | .ok val s =>
    if s.Currtok = some (.punct .rparen) then
      if s.Parencnt = 0 then .error (.missing .lparen)
      else if s.Parencnt - 1 > 0 then .error .unclosed
      else .ok (val, false)
    else if s.Parencnt > 0 then .error .unclosed
    else .ok (val, s.Currtok ≠ none)

end

end SdkTools.Rc
