import Mathlib
import SdkTools.Lib.Fallible

/-!
# The value of a macro

`putValue`, `substituteStrings` and `increaseBuffer` of `util.cpp`. A position in a string
is the list of the characters from there to its NUL; positions in the result are offsets
in its current block. The memory decides which blocks can be allocated.
-/

namespace SdkTools.Nmake.MacroValue

open Lib

set_option autoImplicit false

abbrev Text := List Char

def ESCH : Char := '^'

def MAXBUF : Nat := 1024

inductive Stop where
  | SYNTAX_NO_EQUALS
  | SYNTAX_NO_SEQUENCE
  | SYNTAX_NO_PAREN
  /-- No block of this size can be had. -/
  | OUT_OF_MEMORY (size : Nat)
  | MACRO_TOO_LONG (size : Nat)
  /-- A character after the NUL of a string is read. -/
  | beyond
  /-- A character is written outside the block of the result. -/
  | overrun
  | fuel
deriving DecidableEq

/-- Which blocks can be allocated, and what new memory holds. In an address space of 32 bits
no block overlaps the array of `MAXBUF` characters of the caller or the address 0. -/
structure Memory where
  allocates : Nat → Bool
  fresh : Nat → Char
  bounded : ∀ n, allocates n = true → n + MAXBUF < 2 ^ 32

/-- The result, which is first in an array of its caller. -/
structure Result where
  isFirst : Bool
  block : Text
  dest : Nat
  endPos : Nat
  length : Nat

/-- The result so far. -/
def Result.text (r : Result) : Text := r.block.take r.dest

/-- The block ends at `end`, and `dest` is in it or at its end. -/
structure Result.Valid (r : Result) : Prop where
  length_eq : r.block.length = r.length
  end_eq : r.endPos = r.length
  dest_le : r.dest ≤ r.length
  bounded : r.length + MAXBUF < 2 ^ 32

section

variable (mem : Memory)

/-- The copy of the first block that `increaseBuffer` makes. -/
def rallocate (r : Result) : Except Stop Result :=
  if r.isFirst then
    if mem.allocates r.length then .ok { r with isFirst := false, block := r.block.take r.length }
    else .error (.OUT_OF_MEMORY r.length)
  else .ok r

def increaseBuffer (r : Result) : Except Stop Result := do
  let r ← rallocate mem r
  let newSize := (r.length + MAXBUF) % 2 ^ 32
  if mem.allocates newSize then
    .ok { r with
      block := r.block.take newSize ++ (List.range (newSize - r.block.length)).map mem.fresh
      dest := r.length, length := newSize, endPos := newSize }
  else .error (.MACRO_TOO_LONG newSize)

/-- `*(*dest)++ = c` -/
def store (r : Result) (c : Char) : Except Stop Result :=
  if r.dest < r.block.length then .ok { r with block := r.block.set r.dest c, dest := r.dest + 1 }
  else .error .overrun

def putChar (r : Result) (c : Char) : Except Stop Result :=
  if r.dest = r.endPos then increaseBuffer mem r >>= fun r => store r c else store r c

def putText : Text → Result → Except Stop Result
  | [], r => .ok r
  | c :: s, r => putChar mem r c >>= putText s

/-! ### Scans -/

/-- To the first `stop` that is not escaped, or to the end. -/
def scanTo (stop : Char) : Text → Except Stop Text
  | [] => .ok []
  | c :: t =>
    if c = stop then .ok (c :: t)
    else if c = ESCH then
      match t with
      | [] => .error .beyond
      | _ :: t => scanTo stop t
    else scanTo stop t

/-- The characters up to `stop` without the escapes, and the position of `stop`. -/
def copyTo (stop : Char) : Text → Except Stop (Text × Text)
  | [] => .error .beyond
  | c :: t =>
    if c = stop then .ok ([], c :: t)
    else if c = ESCH then
      match t with
      | [] => .error .beyond
      | e :: t => do
        let (s, t) ← copyTo stop t
        .ok (e :: s, t)
    else do
      let (s, t) ← copyTo stop t
      .ok (c :: s, t)

/-- `_tcschr (name, ':')` -/
def findColon (name : Text) : Option Text :=
  match name.dropWhile (· ≠ ':') with
  | [] => none
  | t => some t

/-! ### Substitution -/

/-- The loop of `substituteStrings` over the text of the macro. -/
def substituteLoop (oldString newString : Text) : Nat → Text → Result → Except Stop Result
  | 0, _, _ => .error .fuel
  | _ + 1, [], r => .ok r
  | fuel + 1, c :: source, r =>
    if oldString.head? = some c ∧ oldString <+: c :: source then
      putText mem newString r >>=
        substituteLoop oldString newString fuel ((c :: source).drop oldString.length)
    else putChar mem r c >>= substituteLoop oldString newString fuel source

/-- From the colon on; the result, and the position behind the parenthesis. -/
def substituteStrings (name source : Text) (r : Result) : Except Stop (Result × Text) := do
  let name := name.tail
  let pEq ← scanTo '=' name
  if pEq = [] then .error .SYNTAX_NO_EQUALS
  else if pEq = name then .error .SYNTAX_NO_SEQUENCE
  else do
    let pPar ← scanTo ')' pEq
    if pPar = [] then .error .SYNTAX_NO_PAREN
    else do
      let (oldString, t) ← copyTo '=' name
      let (newString, _) ← copyTo ')' t.tail
      let r ← substituteLoop mem oldString newString (source.length + 1) source r
      .ok (r, pPar.tail)

/-! ### The value -/

/-- `while (*++*name != ')')`, to the parenthesis. -/
def skipParen : Text → Except Stop Text
  | [] => .error .beyond
  | c :: t => if c = ')' then .ok (c :: t) else skipParen t

/-- To the end of an invocation without substitution, from after its `$`. -/
def skipInvocation (name : Text) : Except Stop Text := do
  let name := if name.head? = some '$' then name.tail else name
  if name.head? = some '(' then do
    let name ← skipParen name.tail
    .ok name.tail
  else if name.head? = some '*' ∧ name.tail.head? = some '*' then .ok name.tail.tail
  else if name = [] then .error .beyond
  else .ok name.tail

/-- The colon of a substitution: one before the first parenthesis that is not escaped. -/
def colonBefore (name t : Text) : Option Text :=
  if name.head? = some '(' then
    match findColon name with
    | some s => if t.length < s.length then some s else none
    | none => none
  else none

/-- The value `source` for the invocation at `name`: the result, and the position behind
the invocation. -/
def putValue (name source : Text) (r : Result) : Except Stop (Result × Text) := do
  let name := name.tail
  let name := if name.head? = some ESCH then name.tail else name
  let t ← scanTo ')' name
  match colonBefore name t with
  | some s => substituteStrings mem s source r
  | none => do
    let r ← putText mem source r
    let name ← skipInvocation name
    .ok (r, name)

end

/-! ### Invocations with a substitution -/

/-- A text in which the characters of `special` and the escape character are escaped; any
other character may be. -/
inductive Escaped (special : Char → Prop) : Text → Text → Prop where
  | nil : Escaped special [] []
  | plain {c : Char} {t s : Text} (hc : ¬ special c) (he : c ≠ ESCH)
      (h : Escaped special t s) : Escaped special (c :: t) (c :: s)
  | escape (c : Char) {t s : Text} (h : Escaped special t s) :
      Escaped special (ESCH :: c :: t) (c :: s)

/-- `$(name:old=new)`, with the texts that `oldText` and `newText` stand for. -/
structure Invocation where
  name : Text
  nameString : Text
  oldText : Text
  newText : Text
  oldString : Text
  newString : Text
  name_escaped : Escaped (fun c => c = ':' ∨ c = ')') name nameString
  /-- A colon is no `MACRO_CHAR`, so that it cannot be escaped in a name. -/
  name_no_colon : ':' ∉ name
  old_escaped : Escaped (fun c => c = '=' ∨ c = ')') oldText oldString
  new_escaped : Escaped (fun c => c = ')') newText newString
  old_ne_nil : oldText ≠ []

def Invocation.text (inv : Invocation) : Text :=
  '$' :: '(' :: (inv.name ++ ':' :: (inv.oldText ++ '=' :: (inv.newText ++ [')'])))

end SdkTools.Nmake.MacroValue
