import Mathlib.Data.List.Basic

/-!
# The makefile parser

The tables of `table.h` and `parse` with its stack. The tokens that `getToken` supplies
before the end of the file are a list; `getToken` gives a `STRING` or a `VALUE` where the
parser asks for one, and nowhere else.
-/

namespace SdkTools.Nmake.Makefile

set_option autoImplicit false

abbrev UCHAR := Nat

def STACKSIZE : Nat := 16

def MAKEFILE : UCHAR := 0x00
def BLANKLINES : UCHAR := 0x01
def MOREBUILDLINES : UCHAR := 0x02
def COMMANDS : UCHAR := 0x03
def BODY : UCHAR := 0x04
def NAMELIST : UCHAR := 0x05
def BUILDINFO : UCHAR := 0x06
def SEPARATOR : UCHAR := 0x07

def START : UCHAR := MAKEFILE

def NAME : UCHAR := 0x10
def NEWLINE : UCHAR := 0x11
def NEWLINESPACE : UCHAR := 0x12
def SEMICOLON : UCHAR := 0x13
def COLON : UCHAR := 0x14
def DOUBLECOLON : UCHAR := 0x15
def EQUALS : UCHAR := 0x16
def ACCEPT : UCHAR := 0x17
def STRING : UCHAR := 0x18
def VALUE : UCHAR := 0x19

def MACRO : UCHAR := 0x20
def SYNTAX : UCHAR := 0x21
def SEPRTR : UCHAR := 0x22
def SEPEQU : UCHAR := 0x23
def NAMES : UCHAR := 0x24
def NOTARG : UCHAR := 0x25
def PARSER : UCHAR := 0x27

def DONAME : UCHAR := 0x40
def DONAMELIST : UCHAR := 0x41
def DOMACRO : UCHAR := 0x42
def DODEPENDS : UCHAR := 0x43
def DOLASTNAME : UCHAR := 0x44
def DOBUILDCMDS : UCHAR := 0x45

def TOKEN_MASK : UCHAR := 0x10
def ERROR_MASK : UCHAR := 0x20
def ACTION_MASK : UCHAR := 0x40
def AMBIG_MASK : UCHAR := 0x80
def LOW_NIBBLE : UCHAR := 0x0F

def YES : UCHAR := 1
def NO : UCHAR := 0

def ON (a b : UCHAR) : Bool := a &&& b != 0

/-- The production arrays, without their lengths. -/
def productions : List (List UCHAR) :=
  [[],
    [BLANKLINES, MAKEFILE],
    [NEWLINE, NAME, DONAME, BODY, MAKEFILE],
    [NAMELIST, SEPARATOR, DOLASTNAME, BUILDINFO, DOBUILDCMDS],
    [EQUALS, VALUE, DOMACRO],
    [],
    [NAME, DONAMELIST, NAMELIST],
    [],
    [MOREBUILDLINES],
    [SEMICOLON, STRING, DONAMELIST, MOREBUILDLINES],
    [NEWLINESPACE, STRING, DONAMELIST, MOREBUILDLINES],
    [],
    [NEWLINE, MOREBUILDLINES],
    [],
    [NEWLINE, BLANKLINES],
    [NEWLINESPACE, BLANKLINES],
    [DODEPENDS],
    [NAMELIST, DODEPENDS, COMMANDS],
    [COLON],
    [DOUBLECOLON]]

def table : List (List UCHAR) :=
  [[SEPRTR, 1 ||| AMBIG_MASK, 1, SYNTAX, NOTARG, NOTARG, MACRO, 0],
    [SYNTAX, 13 ||| AMBIG_MASK, 15, SYNTAX, SYNTAX, SYNTAX, SYNTAX, 13],
    [PARSER, 11 ||| AMBIG_MASK, 10, PARSER, SYNTAX, SYNTAX, SYNTAX, 11],
    [PARSER, 7, 8, 9, SYNTAX, SYNTAX, SYNTAX, 7],
    [3, SEPEQU, SEPEQU, SEPRTR, 3, 3, 4, SEPEQU],
    [6, 5, 5, 5, 5, 5, NAMES, 5],
    [17, 16, 17, 17, SYNTAX, SYNTAX, SYNTAX, 16],
    [PARSER, SEPRTR, SEPRTR, SEPRTR, 18, 19, SYNTAX, SEPRTR]]

def useAlternate : List (List UCHAR) :=
  [[YES, NO, NO, YES, YES, YES, YES, NO],
    [NO, YES, YES, NO, NO, NO, NO, YES],
    [NO, YES, YES, NO, NO, NO, NO, NO]]

section

variable {τ : Type}

inductive Kind where
  | name
  | newline
  | newlineWhitespace
  | semicolon
  | colon
  | doublecolon
  | equals
  | string
  | value
deriving DecidableEq

def Kind.code : Kind → UCHAR
  | .name => NAME
  | .newline => NEWLINE
  | .newlineWhitespace => NEWLINESPACE
  | .semicolon => SEMICOLON
  | .colon => COLON
  | .doublecolon => DOUBLECOLON
  | .equals => EQUALS
  | .string => STRING
  | .value => VALUE

/-- A token with the text that it leaves in `buf` or `string`. -/
structure Token (τ : Type) where
  kind : Kind
  text : τ

/-- An action with the text that it reads from `buf` or `string`: `assignDependents` and
`assignBuildCommands` read neither. -/
structure Event (τ : Type) where
  action : UCHAR
  text : Option τ

def doAction (action : UCHAR) (buf : Option τ) : Event τ :=
  ⟨action, if action = DODEPENDS ∨ action = DOBUILDCMDS then none else buf⟩

inductive Outcome (τ : Type) where
  /-- the parse has ended: the actions, and the stack that it leaves -/
  | finished (events : List (Event τ)) (stack : List UCHAR)
  | makeError (number : UCHAR)
  /-- more symbols than the stack holds, or fewer than none -/
  | stackOverrun
  /-- a `STRING` or a `VALUE` was asked for, and the list goes on with another token -/
  | unread
  /-- the list goes on with a `STRING` or a `VALUE` that was not asked for -/
  | unasked
  | fuel

/-- The outcome after an action. -/
def Outcome.perform (e : Event τ) : Outcome τ → Outcome τ
  | .finished events stack => .finished (e :: events) stack
  | o => o

def Outcome.after (events : List (Event τ)) (o : Outcome τ) : Outcome τ :=
  events.foldr Outcome.perform o

/-- What one request gives: the token, its text and the tokens after it. At the end of the
file the token is `ACCEPT`. -/
def getToken (expected : UCHAR) :
    List (Token τ) → Except (Outcome τ) (UCHAR × Option τ × List (Token τ))
  | [] =>
    if expected = STRING ∨ expected = VALUE then .error .unread else .ok (ACCEPT, none, [])
  | ⟨kind, text⟩ :: ts =>
    if expected = STRING ∨ expected = VALUE then
      if kind.code = expected then .ok (kind.code, some text, ts) else .error .unread
    else if kind.code = STRING ∨ kind.code = VALUE then .error .unasked
    else .ok (kind.code, some text, ts)

/-- The variables of `parse`, with the top of `stack` first; `nextToken` is 0 if no token
has been peeked at. -/
structure State (τ : Type) where
  stack : List UCHAR
  token : UCHAR
  nextToken : UCHAR
  buf : Option τ
  input : List (Token τ)

inductive Step (τ : Type) where
  | next (events : List (Event τ)) (s : State τ)
  | stop (o : Outcome τ)

def topStack (stack : List UCHAR) : UCHAR := stack.headD 0

/-- Push the symbols of production `n`. -/
def pushProduction (n : UCHAR) : State τ → Step τ
  | ⟨rest, token, nextToken, buf, input⟩ =>
    let stack := productions.getD n [] ++ rest
    if stack.length ≤ STACKSIZE then .next [] ⟨stack, token, nextToken, buf, input⟩
    else .stop .stackOverrun

/-- The token on top of the stack has been matched and popped. -/
def matched : State τ → Step τ
  | ⟨stack, _, nextToken, buf, input⟩ =>
    let done := match stack with
      | top :: rest => if ON top ACTION_MASK then ([doAction top buf], rest) else ([], stack)
      | [] => ([], [])
    if nextToken ≠ 0 then .next done.1 ⟨done.2, nextToken, 0, buf, input⟩
    else
      match getToken (topStack done.2) input with
      | .error o => .stop o
      | .ok (token, buf, input) => .next done.1 ⟨done.2, token, 0, buf, input⟩

/-- Peek at the next token, unless that has been done. -/
def peek (stackTop : UCHAR) : State τ → Except (Outcome τ) (State τ)
  | ⟨stack, token, nextToken, buf, input⟩ =>
    if nextToken = 0 then
      match getToken stackTop input with
      | .error o => .error o
      | .ok (nextToken, buf, input) => .ok ⟨stack, token, nextToken, buf, input⟩
    else .ok ⟨stack, token, nextToken, buf, input⟩

/-- The entry `n` of `table` for the nonterminal `stackTop`, which has been popped. -/
def expand (stackTop n : UCHAR) (s : State τ) : Step τ :=
  if ON n AMBIG_MASK then
    match peek stackTop s with
    | .error o => .stop o
    | .ok ⟨stack, token, nextToken, buf, input⟩ =>
      pushProduction ((n &&& LOW_NIBBLE) +
          (useAlternate.getD stackTop []).getD (nextToken &&& LOW_NIBBLE) 0)
        ⟨stack, token, nextToken, buf, input⟩
  else pushProduction n s

/-- One pass through the loop of `parse`. -/
def step : State τ → Step τ
  | ⟨[], _, _, _, _⟩ => .stop .stackOverrun
  | ⟨stackTop :: rest, token, nextToken, buf, input⟩ =>
    if stackTop = ACCEPT then .stop (.finished [] rest)
    else if ON stackTop ACTION_MASK then
      .next [doAction stackTop buf] ⟨rest, token, nextToken, buf, input⟩
    else if ON stackTop TOKEN_MASK then
      if stackTop ≠ token then .stop (.makeError SYNTAX)
      else matched ⟨rest, token, nextToken, buf, input⟩
    else
      let n := (table.getD stackTop []).getD (token &&& LOW_NIBBLE) 0
      if ON n ERROR_MASK then .stop (.makeError n)
      else expand stackTop n ⟨rest, token, nextToken, buf, input⟩

def parseLoop : Nat → State τ → Outcome τ
  | 0, _ => .fuel
  | n + 1, s =>
    match step s with
    | .stop o => o
    | .next events s' => (parseLoop n s').after events

/-- The loop after a request for the first token of `tokens`. -/
def resume (n : Nat) (stack : List UCHAR) (tokens : List (Token τ)) : Outcome τ :=
  match getToken (topStack stack) tokens with
  | .error o => o
  | .ok (token, buf, input) => parseLoop n ⟨stack, token, 0, buf, input⟩

def parse (n : Nat) (tokens : List (Token τ)) : Outcome τ := resume n [START, ACCEPT] tokens

end

end SdkTools.Nmake.Makefile
