import Mathlib
import SdkTools.Lib.Fallible

/-!
# Replacement templates

`RETranslate` and `RETranslateLength` of `reparse.c`. A position in the template is the
list of the characters up to its NUL. What the language leaves undefined (a read after
the NUL, an index outside `pArgBeg`, an overflow of `int`) is a fault.
-/

namespace SdkTools.Ztools

open Lib

set_option autoImplicit false

abbrev CHAR := BitVec 8

def ch (c : Char) : CHAR := BitVec.ofNat 8 c.toNat

def MAXLINELEN : Nat := 1024

/-- 0 is the whole match, 1 to 9 are valid. -/
def MAXPATARG : Int := 10

/-- What a group has matched, which fits the line. -/
abbrev Matched := { text : List CHAR // text.length < MAXLINELEN }

/-- A matched pattern; a group that was not set has no text. -/
structure patType where
  fUnix : Bool
  arg : Fin 10 → Option Matched

inductive Fault where
  /-- A character after the end of the template is read. -/
  | beyond
  /-- `pArgBeg[i]` is outside the array. -/
  | index (i : Int)
  | overflow
  | fuel
deriving DecidableEq

def patType.chArg (buf : patType) : CHAR := if buf.fUnix then ch '\\' else ch '$'

/-! ### The library -/

def isdigit (c : CHAR) : Bool := ch '0' ≤ c ∧ c ≤ ch '9'

def isspace (c : CHAR) : Bool := c = ch ' ' ∨ 9 ≤ c ∧ c ≤ 13

/-- `strbskip (src, digits)` -/
def strbskip (src : List CHAR) : List CHAR := src.dropWhile isdigit

def number (src : List CHAR) : Int :=
  (src.takeWhile isdigit).foldl (fun n c => n * 10 + (c.toNat - (ch '0').toNat)) 0

def atoi (src : List CHAR) : Except Fault Int :=
  let src := src.dropWhile isspace
  let value :=
    if src.head? = some (ch '-') then -number src.tail
    else if src.head? = some (ch '+') then number src.tail
    else number src
  if -2 ^ 31 ≤ value ∧ value < 2 ^ 31 then .ok value else .error .overflow

def abs (w : Int) : Except Fault Int := if w = -2 ^ 31 then .error .overflow else .ok w.natAbs

/-- `sprintf (dst, "%*s", w, work)`: a negative width fills up on the right. -/
def sprintf (w : Int) (work : List CHAR) : List CHAR :=
  if w < 0 then work ++ List.replicate (w.natAbs - work.length) (ch ' ')
  else List.replicate (w.natAbs - work.length) (ch ' ') ++ work

def Escaped (c : CHAR) : CHAR :=
  if c = ch 't' then 9
  else if c = ch 'e' then 0x1b
  else if c = ch 'h' then 8
  else if c = ch 'g' then 7
  else if c = ch 'n' then 10
  else if c = ch 'r' then 13
  else c

/-! ### Groups -/

def RELength (pat : patType) (i : Int) : Except Fault Int :=
  if i > MAXPATARG then .ok (-1)
  else if h : 0 ≤ i ∧ i < 10 then
    match pat.arg ⟨i.toNat, by omega⟩ with
    | none => .ok 0
    | some text => .ok text.1.length
  else .error (.index i)

/-- The text that is copied, or `none` for `FALSE`. -/
def REGetArg (pat : patType) (i : Int) : Except Fault (Option (List CHAR)) :=
  if i > MAXPATARG then .ok none
  else if h : 0 ≤ i ∧ i < 10 then
    match pat.arg ⟨i.toNat, by omega⟩ with
    | none => .ok (some [])
    | some text => .ok (some text.1)
  else .error (.index i)

/-! ### Tags -/

/-- A tag must end with a close parenthesis; the width, the group and what follows. -/
def closeParen (w i : Int) (src : List CHAR) : Option (Int × Int × List CHAR) :=
  if src.head? = some (ch ')') then some (w, i, src.tail) else none

/-- The number before a comma is a field width. -/
def afterNumber (i : Int) (src : List CHAR) : Except Fault (Option (Int × Int × List CHAR)) :=
  if src.head? = some (ch ',') then do
    let w := i
    let i ← atoi src.tail
    .ok (closeParen w i (strbskip src.tail))
  else .ok (closeParen 0 i src)

/-- A tag whose first two characters have been skipped; `c` is the second of them. -/
def tagged (c : CHAR) (src : List CHAR) : Except Fault (Option (Int × Int × List CHAR)) :=
  if isdigit c then .ok (some (0, (c.toNat : Int) - (ch '0').toNat, src))
  else do
    let i ← atoi src
    afterNumber i (strbskip (if src.head? = some (ch '-') then src.tail else src))

def startsTag (next : CHAR) : Bool := isdigit next ∨ next = ch '('

/-! ### Translation -/

def writeArg (buf : patType) (w i : Int) : Except Fault (Option (List CHAR)) := do
  let work ← REGetArg buf i
  match work with
  | none => .ok none
  | some work => do
    let _ ← abs w
    .ok (some (sprintf w work))

/-- The loop of `RETranslate`: the string that is written, or `none` for `FALSE`. -/
def translateLoop (buf : patType) : Nat → List CHAR → List CHAR →
    Except Fault (Option (List CHAR))
  | 0, _, _ => .error .fuel
  | _ + 1, [], dst => .ok (some dst)
  | fuel + 1, c :: src, dst =>
    let next := src.headD 0
    if c = buf.chArg ∧ startsTag next then do
      let tag ← tagged next src.tail
      match tag with
      | none => .ok none
      | some (w, i, src) => do
        let text ← writeArg buf w i
        match text with
        | none => .ok none
        | some text => translateLoop buf fuel src (dst ++ text)
    else if c = ch '\\' then
      match src with
      | [] => .ok none
      | e :: src => translateLoop buf fuel src (dst ++ [Escaped e])
    else if c = buf.chArg ∧ next = buf.chArg then
      translateLoop buf fuel src.tail (dst ++ [buf.chArg])
    else translateLoop buf fuel src (dst ++ [c])

def RETranslate (buf : patType) (src : List CHAR) : Except Fault (Option (List CHAR)) :=
  translateLoop buf (src.length + 1) src []

def addLength (length k : Int) : Except Fault Int :=
  if length + k < 2 ^ 31 then .ok (length + k) else .error .overflow

/-- The loop of `RETranslateLength`. -/
def lengthLoop (buf : patType) : Nat → List CHAR → Int → Except Fault Int
  | 0, _, _ => .error .fuel
  | _ + 1, [], length => .ok length
  | fuel + 1, c :: src, length =>
    let next := src.headD 0
    if c = buf.chArg ∧ startsTag next then do
      let tag ← tagged next src.tail
      match tag with
      | none => .ok (-1)
      | some (w, i, src) => do
        let i ← RELength buf i
        let w ← abs w
        let length ← addLength length (max i w)
        lengthLoop buf fuel src length
    else if c = ch '\\' then
      match src with
      | [] => .error .beyond
      | _ :: src => do
        let length ← addLength length 1
        lengthLoop buf fuel src length
    else if c = buf.chArg ∧ next = buf.chArg then do
      let length ← addLength length 1
      lengthLoop buf fuel src.tail length
    else do
      let length ← addLength length 1
      lengthLoop buf fuel src length

def RETranslateLength (buf : patType) (src : List CHAR) : Except Fault Int :=
  lengthLoop buf (src.length + 1) src 0

/-- Neither function leaves the template or the groups, and the length is the one of the
string that is written; it is -1 when nothing is. -/
def Agrees (buf : patType) (src : List CHAR) : Prop :=
  ∃ result length, RETranslate buf src = .ok result ∧ RETranslateLength buf src = .ok length ∧
    match result with
    | none => length = -1
    | some dst => length = dst.length

/-! ### The pieces of a template -/

inductive Piece where
  | arg (w i : Int)
  | char (c : CHAR)
deriving DecidableEq

inductive Ending where
  | done
  /-- a tag without its close parenthesis -/
  | unclosed
  /-- an escape character at the end -/
  | trailing
deriving DecidableEq

/-- What stands at the start of a template: a piece and the rest, or an end. -/
def firstPiece (chArg : CHAR) : List CHAR → Except Fault (Piece × List CHAR ⊕ Ending)
  | [] => .ok (.inr .done)
  | c :: src =>
    let next := src.headD 0
    if c = chArg ∧ startsTag next then do
      let tag ← tagged next src.tail
      match tag with
      | none => .ok (.inr .unclosed)
      | some (w, i, src) => .ok (.inl (.arg w i, src))
    else if c = ch '\\' then
      match src with
      | [] => .ok (.inr .trailing)
      | e :: src => .ok (.inl (.char (Escaped e), src))
    else if c = chArg ∧ next = chArg then .ok (.inl (.char chArg, src.tail))
    else .ok (.inl (.char c, src))

inductive Template (chArg : CHAR) : List CHAR → List Piece → Ending → Prop where
  | ending {src : List CHAR} {e : Ending} (h : firstPiece chArg src = .ok (.inr e)) :
      Template chArg src [] e
  | piece {src rest : List CHAR} {p : Piece} {ps : List Piece} {e : Ending}
      (h : firstPiece chArg src = .ok (.inl (p, rest))) (hs : Template chArg rest ps e) :
      Template chArg src (p :: ps) e

/-- The text of a group; there is none for a number above the last one. -/
def patType.text (buf : patType) (i : Int) : List CHAR :=
  if h : 0 ≤ i ∧ i < 10 then ((buf.arg ⟨i.toNat, by omega⟩).map Subtype.val).getD [] else []

def Piece.width (buf : patType) : Piece → Nat
  | .arg w i => max (buf.text i).length w.natAbs
  | .char _ => 1

def totalWidth (buf : patType) (ps : List Piece) : Nat := (ps.map (Piece.width buf)).sum

/-- The group of a tag is one of the ten, or beyond any of them in a template that is not
closed; and its width can be negated. -/
def Piece.Fits (e : Ending) : Piece → Prop
  | .arg w i => (0 ≤ i ∧ i < 10 ∨ e = .unclosed ∧ MAXPATARG < i) ∧ w ≠ -2 ^ 31
  | .char _ => True

/-- The template does not end in an escape character, names existing groups only (or fails
in both functions), and neither its numbers nor the length overflow. -/
def Translatable (buf : patType) (src : List CHAR) : Prop :=
  ∃ ps e, Template buf.chArg src ps e ∧ e ≠ .trailing ∧ (∀ p ∈ ps, p.Fits e) ∧
    totalWidth buf ps < 2 ^ 31

end SdkTools.Ztools
