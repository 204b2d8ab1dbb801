import SdkTools.Types

/-!
# Numbers in m4 texts

The routines of `at.c`. A snapped token is the list of its remaining characters;
eating its head drops characters from the front.
-/

namespace SdkTools.M4

set_option autoImplicit false

abbrev TCH := BitVec 8

/-- The arithmetic type `int`. -/
abbrev AT := BitVec 32

def tch (c : Char) : TCH := BitVec.ofNat 8 c.toNat

def fWhiteTch (c : TCH) : Bool :=
  c = tch ' ' ∨ c = tch '\r' ∨ c = tch '\n' ∨ c = tch '\t'

def skipWhitePtok : List TCH → List TCH
  | [] => []
  | c :: rest => if fWhiteTch c then skipWhitePtok rest else c :: rest

/-- The digit that a character stands for in the widest supported radix. -/
def atDigit (c : TCH) : Option AT :=
  let digit := c.setWidth 32 - (tch '0').setWidth 32
  if digit > 9 then
    let letter := (c ||| 0x20).setWidth 32 - (tch 'a').setWidth 32
    if letter > 5 then none else some (letter + 10)
  else some digit

/-- The loop of `atRadixPtok`: the value and the token that is left. -/
def atRadixLoop (radix : AT) (value : AT) : List TCH → AT × List TCH
  | [] => (value, [])
  | c :: rest =>
    match atDigit c with
    | none => (value, c :: rest)
    | some digit =>
      if digit > radix then (value, c :: rest)
      else atRadixLoop radix (value * radix + digit) rest

def atRadixPtok (radix : AT) (tok : List TCH) : AT × List TCH := atRadixLoop radix 0 tok

/-- The radix announced by the first characters, and the token where its digits start. -/
def radixPtok (tok : List TCH) : AT × List TCH :=
  if tok.head? = some (tch '0') then
    if tok.length > 2 ∧ (tok.getD 1 0 ||| 0x20) = tch 'x' then (16, tok.drop 2) else (8, tok)
  else (10, tok)

/-- `none` stands for a zero return, after which the token is as it was. -/
def fEvalPtokPat (tok : List TCH) : Option (AT × List TCH) :=
  if tok.isEmpty then none
  else
    let start := (radixPtok tok).2
    let parsed := atRadixPtok (radixPtok tok).1 start
    if parsed.2.length = start.length then none else some parsed

def atTraditionalPtok (tok : List TCH) : AT :=
  match skipWhitePtok tok with
  | [] => 0
  | c :: rest =>
    if c = tch '-' then -(atRadixPtok 10 rest).1 else (atRadixPtok 10 (c :: rest)).1

/-- The digits of a value, in front of the text pushed so far. -/
def pushDigits (radix : AT) : Nat → AT → List TCH → List TCH
  | 0, _, text => text
  | fuel + 1, value, text =>
    let digit := (value % radix).setWidth 8
    let text := (if digit < 10 then digit + tch '0' else digit + tch 'A' - 10) :: text
    if value / radix = 0 then text else pushDigits radix fuel (value / radix) text

/-- The text that `PushAtRadixCtch` pushes; a radix of two needs 32 digits at most. -/
def pushAtRadixCtch (value radix width : AT) : List TCH :=
  let width := if width.slt 0 then 0 else width
  let radix := if radix < 2 ∨ radix > 36 then 10 else radix
  let digits := pushDigits radix 32 (if value.slt 0 then -value else value) []
  let padded := List.replicate (width.toNat - digits.length) (tch '0') ++ digits
  if value.slt 0 then tch '-' :: padded else padded

end SdkTools.M4
