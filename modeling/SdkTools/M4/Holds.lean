import SdkTools.M4.Stream

/-!
# Holds, tokens and the tokenizer of m4

The memory diversion of `divert.c` in which arguments are collected, the token array of
`xtoken.c`, and the tokens of `token.c`. Both blocks grow by reallocation, which may move them:
the addresses they get are a parameter.
-/

namespace SdkTools.M4

set_option autoImplicit false

/-- Why a run does not return. -/
inductive Stop where
  | die (message : String)
  /-- a pointer that is no longer valid, or a stream behind the last one -/
  | undefined
  | fuel
deriving DecidableEq

abbrev Text := List TCH

/-- A `TOK`: `u` is `itch`, an offset in the hold, while the token is unsnapped, and `ptch`, an
address, while it is snapped. -/
structure TOK where
  u : Nat
  ctch : Nat
deriving DecidableEq

inductive TYP where
  | typQuo
  | typId
  | typMagic
  | typPunc
deriving DecidableEq

def ctchGrow : Nat := 2048
def ctokGrow : Nat := 256

/-- The addresses of the two blocks after each number of reallocations. -/
structure Addresses where
  ptchMin : Nat → Nat
  rgtokArgv : Nat → Nat

/-- The macro table, and what the operators keep elsewhere. -/
structure World (ω : Type) where
  input : Text
  macros : Text → Option Text
  rest : ω

/-- The `Arg` hold with the characters from `ptchMin` to `ptchCur`, the tokens below `ptokTop`, and
for both how often the block was allocated. -/
structure Xstate (ω : Type) where
  hold : Text
  holdBlocks : Nat
  toks : List TOK
  tokBlocks : Nat
  world : World ω

/-- The cookie for an argument vector: the array in which it was found, and the index of `$0`. -/
structure ARGV where
  rgtokArgv : Nat
  itok : Nat

/-! ## The hold -/

namespace Xstate

variable {ω : Type} (addr : Addresses) (s : Xstate ω)

def ptchMin : Nat := addr.ptchMin s.holdBlocks

def addArgTch (tch : TCH) : Xstate ω :=
  { s with
    hold := s.hold ++ [tch]
    holdBlocks :=
      if s.hold.length ≥ ctchGrow * s.holdBlocks then s.holdBlocks + 1 else s.holdBlocks }

def addArgText (text : Text) : Xstate ω := text.foldl addArgTch s

def openArgPtok (tok : TOK) : TOK := { tok with u := s.hold.length }

def closeArgPtok (tok : TOK) : TOK := { tok with ctch := s.hold.length - tok.u }

def snapArgPtok (tok : TOK) : TOK := { tok with u := s.ptchMin addr + tok.u }

def unsnapArgPtok (tok : TOK) : TOK := { tok with u := tok.u - s.ptchMin addr }

/-- The characters of a snapped token. -/
def textPtok (tok : TOK) : Except Stop Text :=
  if s.ptchMin addr ≤ tok.u ∧ tok.u - s.ptchMin addr + tok.ctch ≤ s.hold.length then
    .ok ((s.hold.drop (tok.u - s.ptchMin addr)).take tok.ctch)
  else .error .undefined

def popArgPtok (tok : TOK) : Except Stop (Xstate ω) :=
  if s.ptchMin addr ≤ tok.u ∧ tok.u - s.ptchMin addr ≤ s.hold.length then
    .ok { s with hold := s.hold.take (tok.u - s.ptchMin addr) }
  else .error .undefined

/-! ## The token array -/

def rgtokArgv : Nat := addr.rgtokArgv s.tokBlocks

/-- What a new token holds is never read. -/
def ptokGet : Xstate ω :=
  { s with
    toks := s.toks ++ [⟨0, 0⟩]
    tokBlocks :=
      if s.toks.length ≥ ctokGrow * s.tokBlocks then s.tokBlocks + 1 else s.tokBlocks }

/-- An update of `ptokTop[-1]`. -/
def setTop (f : TOK → TOK) : Xstate ω := { s with toks := s.toks.modifyLast f }

/-- `ptokArgv(i)` for an index of the array; the array must be the one of the cookie. -/
def ptokArgv (argv : ARGV) (i : Nat) : Except Stop TOK :=
  if argv.rgtokArgv = s.rgtokArgv addr then
    match s.toks[i]? with
    | some tok => .ok tok
    | none => .error .undefined
  else .error .undefined

end Xstate

/-! ## The tokenizer -/

def fLquoTch (tch : TCH) : Bool := tch = tchLquo
def fRquoTch (tch : TCH) : Bool := tch = tchRquo
def fLcomTch (c : TCH) : Bool := c = tch '#'
def fRcomTch (c : TCH) : Bool := c = 10
def fMagicTch (tch : TCH) : Bool := tch = tchMagic

def tchLpar : TCH := tch '('
def tchRpar : TCH := tch ')'
def tchComma : TCH := tch ','

/-- The letters and the underscore have both bits of `rgbIdent`, the digits the low one. -/
def fInitialIdentTch (c : TCH) : Bool :=
  (tch 'A' ≤ c ∧ c ≤ tch 'Z') ∨ c = tch '_' ∨ (tch 'a' ≤ c ∧ c ≤ tch 'z')

def fIdentTch (c : TCH) : Bool := fInitialIdentTch c ∨ (tch '0' ≤ c ∧ c ≤ tch '9')

/-- What a scanner adds to the hold, and the input behind it. -/
abbrev Scanned := Except Stop (Text × Text)

def Scanned.add (text : Text) : Scanned → Scanned
  | .ok (more, input) => .ok (text ++ more, input)
  | .error stop => .error stop

/-- The rest of an identifier; the character behind it is ungot. -/
def identTail : Text → Scanned
  | [] => .error .undefined
  | tch :: input =>
    if fIdentTch tch then Scanned.add [tch] (identTail input) else .ok ([], tch :: input)

def typGetIdentTch (tch : TCH) (input : Text) : Scanned := Scanned.add [tch] (identTail input)

/-- The loop of `typGetComTch`. The second byte of a magic is tested like any other. -/
def comTail : Text → Scanned
  | [] => .error .undefined
  | tch :: input =>
    if tch = tchMagic then
      match input with
      | [] => .error .undefined
      | magic :: input =>
        if magic = tchEof then .error (.die "EOF in comment")
        else if fRcomTch magic then .ok ([tch, magic], input)
        else Scanned.add [tch, magic] (comTail input)
    else if fRcomTch tch then .ok ([tch], input)
    else Scanned.add [tch] (comTail input)

def typGetComTch (tch : TCH) (input : Text) : Scanned := Scanned.add [tch] (comTail input)

/-- The loop of `typGetQuoTch`. -/
def quoTail (iDepth : Nat) : Text → Scanned
  | [] => .error .undefined
  | tch :: input =>
    if tch = tchMagic then
      match input with
      | [] => .error .undefined
      | magic :: input =>
        if magic = tchEof then .error (.die "EOF in quote")
        else Scanned.add [tch, magic] (quoTail iDepth input)
    else if fLquoTch tch then Scanned.add [tch] (quoTail (iDepth + 1) input)
    else if fRquoTch tch then
      if iDepth = 1 then .ok ([], input) else Scanned.add [tch] (quoTail (iDepth - 1) input)
    else Scanned.add [tch] (quoTail iDepth input)

def typGetQuoTch (input : Text) : Scanned := quoTail 1 input

def typGetMagicTch (tch : TCH) : Text → Scanned
  | [] => .error .undefined
  | magic :: input => .ok ([tch, magic], input)

def typGetPuncTch (tch : TCH) (input : Text) : Scanned := .ok ([tch], input)

/-- The token at the start of the input. -/
def scanToken : Text → TYP × Scanned
  | [] => (.typPunc, .error .undefined)
  | tch :: input =>
    if fInitialIdentTch tch then (.typId, typGetIdentTch tch input)
    else if fLcomTch tch then (.typQuo, typGetComTch tch input)
    else if fLquoTch tch then (.typQuo, typGetQuoTch input)
    else if fMagicTch tch then (.typMagic, typGetMagicTch tch input)
    else (.typPunc, typGetPuncTch tch input)

/-- The token is stacked into the hold and snapped. -/
def typGetPtok {ω : Type} (addr : Addresses) (s : Xstate ω) :
    Except Stop (TYP × TOK × Xstate ω) :=
  let tok := s.openArgPtok ⟨0, 0⟩
  match scanToken s.world.input with
  | (_, .error stop) => .error stop
  | (typ, .ok (text, input)) =>
    let s := { s with world := { s.world with input } }.addArgText text
    .ok (typ, s.snapArgPtok addr (s.closeArgPtok tok), s)

end SdkTools.M4
