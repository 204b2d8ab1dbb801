import SdkTools.M4.Number
import SdkTools.Lib.Machine

/-!
# Input streams

The streams of `stream.c`. A buffer is the list of the characters from `ptchMin` to
`ptchMax`, and `ptchCur` an index into it. What fresh memory holds is a parameter.
-/

namespace SdkTools.M4

open Lib

set_option autoImplicit false

def tchMagic : TCH := 0

/-- The place of `Eof` in the table of operators. -/
def tchEof : TCH := 25

def tokEof : List TCH := [tchMagic, tchEof]

def tchLquo : TCH := tch (Char.ofNat 0x60)

def tchRquo : TCH := tch (Char.ofNat 0x27)

def ctchMinPush : Nat := 1024

def ctchFile : Nat := 4096

/-- What one read of a file can give: at most `ctchFile` characters, and some of them
before the end. -/
abbrev Chunk := { chunk : List TCH // chunk ≠ [] ∧ chunk.length ≤ ctchFile }

/-- An open file: what its reads will give until they give nothing. -/
abbrev HF := List Chunk

structure Stm where
  buffer : List TCH
  ptchCur : Nat
  hf : Option HF

abbrev Chain := List Stm

inductive StreamFault where
  /-- an `Assert` fails -/
  | assert
  /-- there is no stream -/
  | null
  | fuel
deriving DecidableEq, Repr

section

variable (fresh : Nat → TCH)

def ptchAllocCtch (ctch : Nat) : List TCH := (List.range ctch).map fresh

/-- `CopyPtchPtchCtch` and `MovePtchPtchCtch` to an index of a buffer. -/
def copyAt (buffer : List TCH) (itch : Nat) (src : List TCH) : List TCH :=
  buffer.take itch ++ src ++ buffer.drop (itch + src.length)

/-- The loop of `ctchDemagicPstmCtch`. -/
def demagic : List TCH → List TCH
  | [] => []
  | c :: cs => if c = tchMagic then tchMagic :: c :: demagic cs else c :: demagic cs

/-- The stream, with its buffer reallocated, and the number of characters in it. -/
def ctchDemagicPstmCtch (pstm : Stm) (ctch : Nat) : Stm × Nat :=
  let out := demagic (pstm.buffer.take ctch)
  (⟨copyAt (ptchAllocCtch fresh (ctch * 2)) 0 out, pstm.ptchCur, pstm.hf⟩, out.length)

def pstmPushStringCtch (ctch : Nat) (chain : Chain) : Chain :=
  ⟨ptchAllocCtch fresh ctch, ctch, none⟩ :: chain

def pstmPushHfPtch (hf : HF) (chain : Chain) : Chain :=
  ⟨ptchAllocCtch fresh ctchFile, ctchFile, some hf⟩ :: chain

/-- The end of `PushPtok`: the token in front of the unread characters. -/
def Stm.store (pstm : Stm) (tok : List TCH) : Stm :=
  let ptchCur := pstm.ptchCur - tok.length
  ⟨copyAt pstm.buffer ptchCur tok, ptchCur, pstm.hf⟩

def pushPtok (tok : List TCH) : Chain → Except StreamFault Chain
  | [] => .error .null
  | pstm :: rest =>
    if tok.length > pstm.ptchCur then
      let ctch := max tok.length ctchMinPush
      .ok (Stm.store ⟨ptchAllocCtch fresh ctch, ctch, none⟩ tok :: pstm :: rest)
    else .ok (pstm.store tok :: rest)

def pushTch (c : TCH) (chain : Chain) : Except StreamFault Chain := pushPtok fresh [c] chain

def pushQuotedPtok (tok : List TCH) (chain : Chain) : Except StreamFault Chain := do
  let chain ← pushTch fresh tchRquo chain
  let chain ← pushPtok fresh tok chain
  pushTch fresh tchLquo chain

/-- `fFillPstm` for an open file. -/
def fFillPstm (pstm : Stm) (hf : HF) (rest : Chain) : Except StreamFault Chain :=
  if pstm.buffer.length < ctchFile then .error .assert
  else
    match hf with
    | [] => pushPtok fresh tokEof (⟨pstm.buffer, pstm.ptchCur, none⟩ :: rest)
    | chunk :: hf =>
      let pstm : Stm := ⟨copyAt pstm.buffer 0 chunk.val, pstm.ptchCur, some hf⟩
      let (pstm, ctch) :=
        if tchMagic ∈ chunk.val then ctchDemagicPstmCtch fresh pstm chunk.val.length
        else (pstm, chunk.val.length)
      let ptchCur := pstm.buffer.length - ctch
      .ok (⟨copyAt pstm.buffer ptchCur (pstm.buffer.take ctch), ptchCur, pstm.hf⟩ :: rest)

/-- The loop of `tchPeek`: the character and the chain, whose first stream has it. -/
def tchPeekLoop : Nat → Chain → Except StreamFault (TCH × Chain)
  | 0, _ => .error .fuel
  | _ + 1, [] => .error .null
  | n + 1, pstm :: rest =>
    if h : pstm.ptchCur < pstm.buffer.length then .ok (pstm.buffer[pstm.ptchCur], pstm :: rest)
    else if pstm.ptchCur ≠ pstm.buffer.length then .error .assert
    else
      match pstm.hf with
      | none => tchPeekLoop n rest
      | some hf => do
        let chain ← fFillPstm fresh pstm hf rest
        tchPeekLoop n chain

def tchPeek (chain : Chain) : Except StreamFault (TCH × Chain) :=
  tchPeekLoop fresh (chain.length + 1) chain

/-- `ptchCur++` in the first stream. -/
def advance : Chain → Chain
  | [] => []
  | pstm :: rest => ⟨pstm.buffer, pstm.ptchCur + 1, pstm.hf⟩ :: rest

def tchGet (chain : Chain) : Except StreamFault (TCH × Chain) := do
  let (c, chain) ← tchPeek fresh chain
  .ok (c, advance chain)

def ungetTch (c : TCH) : Chain → Except StreamFault Chain
  | [] => .error .null
  | pstm :: rest =>
    if pstm.ptchCur ≤ pstm.buffer.length ∧ 0 < pstm.ptchCur ∧
        pstm.buffer[pstm.ptchCur - 1]? = some c then
      .ok (⟨pstm.buffer, pstm.ptchCur - 1, pstm.hf⟩ :: rest)
    else .error .assert

/-! ### Operations -/

inductive StreamOp where
  | tchPeek
  | tchGet
  | ungetTch (c : TCH)
  | pushPtok (tok : List TCH)
  | pushTch (c : TCH)
  | pushQuotedPtok (tok : List TCH)
  | pushHf (hf : HF)

def noOutput (result : Except StreamFault Chain) : Except StreamFault (Option TCH × Chain) := do
  let chain ← result
  .ok (none, chain)

def output (result : Except StreamFault (TCH × Chain)) :
    Except StreamFault (Option TCH × Chain) := do
  let (c, chain) ← result
  .ok (some c, chain)

def StreamOp.exec (op : StreamOp) (chain : Chain) : Except StreamFault (Option TCH × Chain) :=
  match op with
  | .tchPeek => output (M4.tchPeek fresh chain)
  | .tchGet => output (M4.tchGet fresh chain)
  | .ungetTch c => noOutput (M4.ungetTch c chain)
  | .pushPtok tok => noOutput (M4.pushPtok fresh tok chain)
  | .pushTch c => noOutput (M4.pushTch fresh c chain)
  | .pushQuotedPtok tok => noOutput (M4.pushQuotedPtok fresh tok chain)
  | .pushHf hf => noOutput (.ok (pstmPushHfPtch fresh hf chain))

/-- The chain before any input, as `InputHfPtsz` makes it. -/
def noInput : Chain := pstmPushStringCtch fresh 2 []

end

/-! ### The sequence still to be read -/

/-- The characters of a file from here on, and the marker of its end. -/
def fileText (hf : HF) : List TCH := demagic (hf.flatMap Subtype.val) ++ tokEof

/-- `got` is the character just got. -/
structure Unread where
  text : List TCH
  got : Option TCH

/-- What an operation is for; there is none on the end of the input, and only the character
just got can be ungot. -/
def StreamOp.spec (op : StreamOp) (s : Unread) : Except Unit (Option TCH × Unread) :=
  match op, s with
  | .tchPeek, ⟨c :: text, _⟩ => .ok (some c, ⟨c :: text, none⟩)
  | .tchGet, ⟨c :: text, _⟩ => .ok (some c, ⟨text, some c⟩)
  | .ungetTch c, ⟨text, some c'⟩ => if c = c' then .ok (none, ⟨c :: text, none⟩) else .error ()
  | .pushPtok tok, ⟨text, _⟩ => .ok (none, ⟨tok ++ text, none⟩)
  | .pushTch c, ⟨text, _⟩ => .ok (none, ⟨c :: text, none⟩)
  | .pushQuotedPtok tok, ⟨text, _⟩ => .ok (none, ⟨tchLquo :: (tok ++ tchRquo :: text), none⟩)
  | .pushHf hf, ⟨text, _⟩ => .ok (none, ⟨fileText hf ++ text, none⟩)
  | _, _ => .error ()

end SdkTools.M4
