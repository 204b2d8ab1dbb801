import Mathlib.Data.List.Basic

/-!
# The directives of a makefile

`ifexpr.cpp` of NMAKE and the scanning functions of `lexer.cpp` it calls: the
characters the lexer gets, the directives carried out and the conditions
evaluated on the way. The text is a makefile, not tools.ini. The values of
conditions and the expansion of macros are given for each place in the text,
counted by the characters after it.
-/

namespace SdkTools.Nmake

set_option autoImplicit false

abbrev Text := List Char

def IFSTACKSIZE : Nat := 16

def ESCH : Char := '^'

def isWhitespace (c : Char) : Bool := c == ' ' || c == '\t'

/-- The directive types; the last five are not about conditionals. -/
inductive DirType where
  | ifType | elseType | elseIf | elseIfdef | elseIfndef | ifdef | ifndef | endif
  | include | cmdswitches | error | message | undef
deriving DecidableEq, Repr

/-- `type > ENDIF_TYPE` -/
def DirType.notIf : DirType → Bool
  | .include | .cmdswitches | .error | .message | .undef => true
  | _ => false

/-- The errors, all of them fatal. -/
inductive Err where
  | badDirective | missingDirective | tooManyIfs | eofNoDirective
  | unexpectedElse | unexpectedEndif | userControlled | condition | macros | fuel
deriving DecidableEq, Repr

/-- What happens while the text is read. -/
inductive Event where
  | deliver (c : Char)
  | evaluate (pos : Nat) (kind : DirType) (s : Text)
  | execute (pos : Nat) (kind : DirType) (s : Text)
deriving DecidableEq, Repr

/-- The parts of the program the directives rest on. -/
structure Env where
  /-- the value of a condition, `none` when its evaluation ends in an error -/
  value : Nat → DirType → Text → Option Bool
  /-- `removeMacros`, `none` when it ends in an error -/
  removeMacros : Nat → Text → Option Text

/-! ## Scanning -/

/-- The text after a comment whose `#` has been read, and after the comment lines
that follow it. -/
def skipComments : Text → Text
  | [] => []
  | '\n' :: '#' :: text => skipComments text
  | '\n' :: text => text
  | _ :: text => skipComments text

/-- The text after the newline of a continued line. -/
def afterContinuation : Text → Text
  | '#' :: text => skipComments text
  | text => text

/-- A backslash has been read: the character that stands for it, the text after it
and `colZero`. -/
def skipBackSlash : Nat → Text → Bool → Option Char × Text × Bool
  | k + 1, '\n' :: text, _ =>
    match afterContinuation text with
    | [] => (none, [], true)
    | '\\' :: text => skipBackSlash k text true
    | c :: text => (some c, text, true)
  | _, text, colZero => (some '\\', text, colZero)

/-- The next character, with backslash-newlines taken out. -/
def getJoined (k : Nat) : Text → Option Char × Text
  | [] => (none, [])
  | '\\' :: text =>
    let (c, text, _) := skipBackSlash k text false
    (c, text)
  | c :: text => (some c, text)

/-- The text from the line after this one on. -/
def nextLine : Text → Text
  | [] => []
  | '\n' :: text => text
  | _ :: text => nextLine text

def skipWhiteSpace : Nat → Text → Option Char × Text
  | 0, text => (none, text)
  | _, [] => (none, [])
  | k + 1, c :: text =>
    if c = ESCH then
      match text with
      | w :: rest => if isWhitespace w then skipWhiteSpace k rest else (some ESCH, text)
      | [] => (some ESCH, [])
    else
      match getJoined k (c :: text) with
      | (none, rest) => (none, rest)
      | (some c, rest) =>
        if isWhitespace c then skipWhiteSpace k rest
        else if c = '#' then (some '\n', skipComments rest)
        else (some c, rest)

/-- The loop of `readInOneLine` that fills the buffer. -/
def readBuffer : Nat → Text → Text × Text
  | 0, text => ([], text)
  | k + 1, text =>
    match getJoined k text with
    | (none, rest) => ([], rest)
    | (some c, rest) =>
      if c = '\n' then ([], rest)
      else if c = '#' then ([], nextLine rest)
      else
        let (buf, rest) := readBuffer k rest
        (c :: buf, rest)

/-- The text of a directive whose `!` has been read, with its macros expanded, and
the text after it. -/
def readInOneLine (env : Env) (text : Text) : Except Err (Text × Text) :=
  match skipWhiteSpace (text.length + 1) text with
  | (none, _) => .error .missingDirective
  | (some c, rest) =>
    if c = '\n' then .error .missingDirective
    else
      let (buf, rest) := readBuffer (text.length + 2) (c :: rest)
      match env.removeMacros rest.length buf with
      | none => .error .macros
      | some s => .ok (s, rest)

/-! ## Directive types -/

/-- The word at the start of a text, and what follows it after white space. -/
def splitWord (s : Text) : Text × Text :=
  (s.takeWhile (!isWhitespace ·), (s.dropWhile (!isWhitespace ·)).dropWhile isWhitespace)

/-- `_tcsnicmp` of a whole word with a keyword. -/
def isWord (word : Text) (keyword : String) : Bool :=
  word.map Char.toUpper == keyword.toList

def ifsPresent (word t : Text) : Option (DirType × Text) :=
  if isWord word "IF" then some (.ifType, t)
  else if isWord word "IFDEF" then some (.ifdef, t)
  else if isWord word "IFNDEF" then some (.ifndef, t)
  else if isWord word "ELSE" then
    if t = [] then some (.elseType, t)
    else
      let (word, t) := splitWord t
      if isWord word "IF" then some (.elseIf, t)
      else if isWord word "IFDEF" then some (.elseIfdef, t)
      else if isWord word "IFNDEF" then some (.elseIfndef, t)
      else none
  else if isWord word "ELSEIF" then some (.elseIf, t)
  else if isWord word "ELSEIFDEF" then some (.elseIfdef, t)
  else if isWord word "ELSEIFNDEF" then some (.elseIfndef, t)
  else if isWord word "ENDIF" then some (.endif, t)
  else none

def getDirType (s : Text) : Except Err (DirType × Text) :=
  let (word, t) := splitWord s
  if isWord word "INCLUDE" then .ok (.include, t)
  else if isWord word "CMDSWITCHES" then .ok (.cmdswitches, t)
  else if isWord word "ERROR" then .ok (.error, t)
  else if isWord word "MESSAGE" then .ok (.message, t)
  else if isWord word "UNDEF" then .ok (.undef, t)
  else
    match ifsPresent word t with
    | some d => .ok d
    | none => .error .badDirective

/-! ## Skipped text -/

/-- The end of a turn of the loop over a line: the line ends, or `next` goes on
with its next character. -/
def endOrNext (next : Option Char → Text → Bool → Option Char × Text × Bool)
    (c : Option Char) (text : Text) (colZero : Bool) : Option Char × Text × Bool :=
  match c with
  | none => (none, text, colZero)
  | some c =>
    if c = '\n' then (some '\n', text, colZero)
    else if c = '#' then
      if '\n' ∈ text then (some '\n', nextLine text, colZero) else (none, [], colZero)
    else next text.head? text.tail colZero

/-- Skips the rest of a line from the character `c` on; ends with the newline, the
end of the text or a `!` in column zero. -/
def skipLine : Nat → Option Char → Text → Bool → Option Char × Text × Bool
  | 0, _, text, colZero => (none, text, colZero)
  | k + 1, c, text, colZero =>
    if c = some '\\' then
      let (c, text, colZero) := skipBackSlash k text colZero
      if c = some '!' ∧ colZero then (c, text, colZero)
      else endOrNext (skipLine k) c text false
    else endOrNext (skipLine k) c text colZero

/-- The lines up to the next `!` in column zero: the text after it. -/
def skipLines : Nat → Text → Bool → Option (Text × Bool)
  | 0, _, _ => none
  | _, [], _ => none
  | k + 1, c :: text, colZero =>
    if c = '!' then some (text, colZero)
    else
      match skipLine (text.length + 2) (some c) text colZero with
      | (none, _, _) => none
      | (some c, text, colZero) => if c = '!' then some (text, colZero) else skipLines k text colZero

/-- The text of the next directive about conditionals, which is handed back to the
main loop, and the text after it. -/
def skipToNextDirective (env : Env) : Nat → Text → Bool → Except Err (Text × Text × Bool)
  | 0, _, _ => .error .fuel
  | k + 1, text, colZero =>
    match skipLines (text.length + 1) text colZero with
    | none => .error .eofNoDirective
    | some (text, colZero) => do
      let (s, text) ← readInOneLine env text
      let (kind, _) ← getDirType s
      if kind.notIf then skipToNextDirective env k text colZero else .ok (s, text, colZero)

/-! ## Conditionals -/

/-- An element of `ifStack`. -/
structure Element where
  ifelse : Bool
  condition : Bool
  ignore : Bool
  elseif : Bool
deriving DecidableEq, Repr

structure State where
  text : Text
  colZero : Bool
  prevDirPtr : Option Text
  /-- the elements up to `ifTop`, the top one first -/
  ifStack : List Element
deriving DecidableEq, Repr

/-- The events of a part of the program and how it ends. -/
abbrev Result (α : Type) := List Event × Except Err α

def Result.andThen {α β : Type} (r : Result α) (next : α → Result β) : Result β :=
  match r with
  | (events, .error e) => (events, .error e)
  | (events, .ok a) => (events ++ (next a).1, (next a).2)

/-- The end of `processIfs` that skips text. -/
def skipFrom (env : Env) (st : State) : Except Err State := do
  let (s, text, colZero) ← skipToNextDirective env (st.text.length + 1) st.text st.colZero
  .ok { st with text := text, colZero := colZero, prevDirPtr := some s }

def evalExpr (env : Env) (pos : Nat) (kind : DirType) (s : Text) : Except Err Bool :=
  if s = [] then .error .missingDirective
  else
    match env.value pos kind s with
    | some v => .ok v
    | none => .error .condition

/-- The branch of an `!IF` or `!ELSEIF` whose condition has to be evaluated; `top`
is its element, which gets the condition bit. -/
def evalTop (env : Env) (kind : DirType) (s : Text) (st : State) (top : Element)
    (stack : List Element) : Result State :=
  ([.evaluate st.text.length kind s],
    match evalExpr env st.text.length kind s with
    | .error e => .error e
    | .ok true => .ok { st with ifStack := { top with condition := true } :: stack }
    | .ok false => skipFrom env { st with ifStack := top :: stack })

def processIfs (env : Env) (s : Text) (kind : DirType) (st : State) : Result State :=
  match kind with
  | .ifType | .ifdef | .ifndef =>
    if st.ifStack.length = IFSTACKSIZE then ([], .error .tooManyIfs)
    else
      match st.ifStack with
      | outer :: _ =>
        if outer.condition then
          evalTop env kind s st ⟨true, false, false, false⟩ st.ifStack
        else ([], skipFrom env { st with ifStack := ⟨true, false, true, false⟩ :: st.ifStack })
      | [] => evalTop env kind s st ⟨true, false, false, false⟩ st.ifStack
  | .elseType =>
    match st.ifStack with
    | [] => ([], .error .unexpectedElse)
    | top :: stack =>
      if !top.ifelse && !top.elseif then ([], .error .unexpectedElse)
      else if top.ignore then
        ([], skipFrom env { st with ifStack :=
          { top with ifelse := false, elseif := false } :: stack })
      else if !top.condition then
        ([], .ok { st with ifStack :=
          { top with ifelse := false, elseif := false, condition := true } :: stack })
      else
        ([], skipFrom env { st with ifStack :=
          { top with ifelse := false, elseif := false, condition := false } :: stack })
  | .elseIf | .elseIfdef | .elseIfndef =>
    match st.ifStack with
    | [] => ([], .error .unexpectedElse)
    | top :: stack =>
      if !top.ifelse && !top.elseif then ([], .error .unexpectedElse)
      else if top.ignore then
        ([], skipFrom env { st with ifStack :=
          { top with ifelse := false, elseif := true } :: stack })
      else if top.condition then
        ([], skipFrom env { st with ifStack :=
          { top with ifelse := false, elseif := true, ignore := true, condition := false } ::
            stack })
      else evalTop env kind s st { top with ifelse := false, elseif := true } stack
  | .endif =>
    match st.ifStack with
    | [] => ([], .error .unexpectedEndif)
    | [_] => ([], .ok { st with ifStack := [] })
    | _ :: outer :: stack =>
      if outer.condition then ([], .ok { st with ifStack := outer :: stack })
      else ([], skipFrom env { st with ifStack := outer :: stack })
  | _ => ([], .ok st)

/-! ## The characters the lexer gets -/

/-- A directive whose text has been read. -/
def processDirective (env : Env) (s : Text) (st : State) : Result State :=
  match getDirType s with
  | .error e => ([], .error e)
  | .ok (kind, t) =>
    if kind.notIf then
      ([.execute st.text.length kind t],
        if kind = .error then .error .userControlled else .ok { st with colZero := true })
    else
      (processIfs env t kind st).andThen fun st => ([], .ok { st with colZero := true })

def lgetc (env : Env) : Nat → State → Result (Option Char × State)
  | 0, _ => ([], .error .fuel)
  | k + 1, st =>
    match st.prevDirPtr with
    | some s =>
      (processDirective env s { st with colZero := false, prevDirPtr := none }).andThen (lgetc env k)
    | none =>
      match st.text with
      | [] => ([], .ok (none, st))
      | c :: text =>
        if st.colZero && c == '!' then
          match readInOneLine env text with
          | .error e => ([], .error e)
          | .ok (s, text) =>
            (processDirective env s { st with text := text, colZero := false }).andThen
              (lgetc env k)
        else ([], .ok (some c, { st with text := text }))

/-- The events of a run and the error that ends it. -/
abbrev Outcome := List Event × Option Err

def Outcome.after (events : List Event) (o : Outcome) : Outcome := (events ++ o.1, o.2)

/-- What the lexer does with the result of `lgetc`. -/
def takeChar (next : State → Outcome) : Result (Option Char × State) → Outcome
  | (events, .error e) => (events, some e)
  | (events, .ok (none, _)) => (events, none)
  | (events, .ok (some c, st)) =>
    Outcome.after (events ++ [.deliver c]) (next { st with colZero := c == '\n' })

/-- A lexer that reads the whole text, with `colZero` set after each newline. -/
def readText (env : Env) : Nat → State → Outcome
  | 0, _ => ([], some .fuel)
  | k + 1, st => takeChar (readText env k) (lgetc env (st.text.length + 2) st)

def readMakefile (env : Env) (text : Text) : Outcome :=
  readText env (text.length + 1) ⟨text, true, none, []⟩

end SdkTools.Nmake
