import SdkTools.M4.Holds

/-!
# Macro expansion

`xtoken.c` and the dispatch of `crackle.c`. The operators are a parameter: they get the texts of
the arguments, and none of them uses the `Arg` hold or the token array.
-/

namespace SdkTools.M4

set_option autoImplicit false

/-- The operators by the character behind the magic, and the traces they may write. -/
abbrev Operators (ω : Type) := TCH → List Text → World ω → Except Stop (World ω)

section

variable {ω : Type} (addr : Addresses) (rgop : Operators ω)

/-! ## Dispatch -/

def addExpAt (n : Nat) : Text := (Nat.toDigits 10 n).map tch

/-- `opcAddDollar` for each argument: with quotes for `$@`, without for `$*`. -/
def addDollar (quoted : Bool) (args : List Text) : Text :=
  [tchComma].intercalate
    (args.map fun arg => if quoted then tchLquo :: (arg ++ [tchRquo]) else arg)

/-- The loop of `PushSubstPtokArgv`; `args` begins with `$1`. -/
def substArgv (name : Text) (args : List Text) : Text → Text
  | [] => []
  | [c] => [c]
  | c :: d :: text =>
    if c ≠ tch '$' then c :: substArgv name args (d :: text)
    else if tch '0' ≤ d ∧ d ≤ tch '9' then
      (name :: args).getD (d - tch '0').toNat [] ++ substArgv name args text
    else if d = tch '#' then addExpAt args.length ++ substArgv name args text
    else if d = tch '*' then addDollar false args ++ substArgv name args text
    else if d = tch '@' then addDollar true args ++ substArgv name args text
    else c :: substArgv name args (d :: text)

def World.pushPtok (w : World ω) (text : Text) : World ω := { w with input := text ++ w.input }

/-- `CrackleArgv` on the texts of the arguments. -/
def crackleArgv (name : Text) (args : List Text) (w : World ω) : Except Stop (World ω) :=
  match w.macros name with
  | some [c, op] =>
    if c = tchMagic then rgop op (name :: args) w
    else .ok (w.pushPtok (substArgv name args [c, op]))
  | some value => .ok (w.pushPtok (substArgv name args value))
  | none => .ok (w.pushPtok name)

/-! ## Arguments -/

def tchPeekAt (w : World ω) : Except Stop TCH :=
  match w.input with
  | [] => .error .undefined
  | tch :: _ => .ok tch

/-- Literal white space is eaten. -/
def eatWhite : Text → Except Stop Text
  | [] => .error .undefined
  | tch :: input => if fWhiteTch tch then eatWhite input else .ok (tch :: input)

/-- `ptchPtok(&tok)[0]`. -/
def firstTch (s : Xstate ω) (tok : TOK) : Except Stop TCH := do
  let text ← s.textPtok addr tok
  match text with
  | [] => .error .undefined
  | tch :: _ => .ok tch

/-- The depth of the parentheses behind a punctuation, unless it ends the argument. -/
def depthAfter (tch : TCH) (iDepth : Nat) : Option Nat :=
  if tch = tchLpar then some (iDepth + 1)
  else if tch = tchRpar then if iDepth = 0 then none else some (iDepth - 1)
  else if tch = tchComma ∧ iDepth = 0 then none
  else some iDepth

/-- The inner loop of `argvParsePtok`: tokens up to the end of the argument, which is read too. -/
def collectArg (xtok : Xstate ω → Except Stop (TYP × TOK × Xstate ω)) :
    Nat → Nat → Xstate ω → Except Stop (TOK × Xstate ω)
  | 0, _, _ => .error .fuel
  | fuel + 1, iDepth, s => do
    let (typ, tok, s) ← xtok s
    if typ = .typPunc then
      let tch ← firstTch addr s tok
      match depthAfter tch iDepth with
      | none => .ok (tok, s)
      | some iDepth => collectArg xtok fuel iDepth s
    else collectArg xtok fuel iDepth s

/-- The outer loop of `argvParsePtok`. -/
def collectArgs (xtok : Xstate ω → Except Stop (TYP × TOK × Xstate ω)) :
    Nat → Xstate ω → Except Stop (Xstate ω)
  | 0, _ => .error .fuel
  | fuel + 1, s => do
    let input ← eatWhite s.world.input
    let s := { s with world := { s.world with input } }.ptokGet
    let s := s.setTop s.openArgPtok
    let (tok, s) ← collectArg addr xtok fuel 0 s
    let s := s.setTop s.closeArgPtok
    let s := s.setTop fun top => { top with ctch := top.ctch - 1 }
    let tch ← firstTch addr s tok
    if tch = tchComma then collectArgs xtok fuel s else .ok s

/-- The arguments in parentheses, if there are any. -/
def collectParens (xtok : Xstate ω → Except Stop (TYP × TOK × Xstate ω)) (fuel : Nat)
    (s : Xstate ω) : Except Stop (Xstate ω) := do
  let tch ← tchPeekAt s.world
  if tch = tchLpar then
    collectArgs addr xtok fuel { s with world := { s.world with input := s.world.input.tail } }
  else .ok s

/-- The cookie is taken before the last token is got, which may move the array. -/
def argvParsePtok (xtok : Xstate ω → Except Stop (TYP × TOK × Xstate ω)) (fuel : Nat)
    (ptok : TOK) (s : Xstate ω) : Except Stop (ARGV × Xstate ω) := do
  let s := s.ptokGet
  let itok := s.toks.length
  let s := s.ptokGet.setTop fun _ => ptok
  let s ← collectParens addr xtok fuel s
  let argv : ARGV := ⟨s.rgtokArgv addr, itok⟩
  let ctok := s.toks.length - itok - 1
  let s := { s with toks := s.toks.modify (itok - 1) fun tok => { tok with ctch := ctok } }
  let s := s.ptokGet
  let s := s.setTop s.openArgPtok
  let s := s.setTop s.closeArgPtok
  .ok (argv, s)

/-- The texts of `ptokArgv(first)` and the ones behind it. -/
def argvTexts (s : Xstate ω) (argv : ARGV) : Nat → Nat → Except Stop (List Text)
  | _, 0 => .ok []
  | first, count + 1 => do
    let tok ← s.ptokArgv addr argv first
    let text ← s.textPtok addr tok
    let texts ← argvTexts s argv (first + 1) count
    .ok (text :: texts)

def xmacPtok (xtok : Xstate ω → Except Stop (TYP × TOK × Xstate ω)) (fuel : Nat)
    (ptok : TOK) (s : Xstate ω) : Except Stop (Xstate ω) := do
  let (argv, s) ← argvParsePtok addr xtok fuel (s.unsnapArgPtok addr ptok) s
  let head ← s.ptokArgv addr argv (argv.itok - 1)
  let ctok := head.ctch
  -- `$0` to `$(n+1)` are snapped.
  let s := { s with
    toks := s.toks.mapIdx fun i tok =>
      if argv.itok ≤ i ∧ i ≤ argv.itok + ctok + 1 then s.snapArgPtok addr tok else tok }
  let name ← s.ptokArgv addr argv argv.itok
  let name ← s.textPtok addr name
  let args ← argvTexts addr s argv (argv.itok + 1) ctok
  let world ← crackleArgv rgop name args s.world
  let s := { s with world }
  let dollar0 ← s.ptokArgv addr argv argv.itok
  let s ← s.popArgPtok addr dollar0
  .ok { s with toks := s.toks.take (argv.itok - 1) }

/-- The fuel bounds the expansions in a row, the nesting and the loops of each call. -/
def typXtokPtok : Nat → Xstate ω → Except Stop (TYP × TOK × Xstate ω)
  | 0, _ => .error .fuel
  | fuel + 1, s => do
    let (typ, tok, s) ← typGetPtok addr s
    let text ← s.textPtok addr tok
    if typ = .typId ∧ (s.world.macros text).isSome then
      let s ← xmacPtok addr rgop (typXtokPtok fuel) fuel tok s
      typXtokPtok fuel s
    else .ok (typ, tok, s)

end

end SdkTools.M4
