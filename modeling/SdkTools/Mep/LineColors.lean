import Mathlib

/-!
# The colours of lines and their undo records

The colour array of `textline.c` beside the line array, and what `undo.c` does with it. A colour
record points at a block of the heap or at none. The array is the list of the records of the lines
in the file; behind it the records are blank. The texts are left out.
-/

namespace SdkTools.Mep.Colors

set_option autoImplicit false

/-- The attributes of a line, as a block holds them. -/
abbrev Attrs := List UInt8

/-- The field `vaColors` of a `colorRecType`: a block of the heap, if it is not -1. -/
abbrev ColorRec := Option Nat

/-- The blocks in the order of their allocation; a freed one has no contents. -/
abbrev Heap := List (Option Attrs)

namespace Heap

def contents (h : Heap) (b : Nat) : Option Attrs := (h[b]?).join

def malloc (h : Heap) (buf : Attrs) : Nat × Heap := (h.length, h ++ [some buf])

/-- A block that is freed twice is not defined. -/
def free (h : Heap) (b : Nat) : Option Heap := (h.contents b).map fun _ => h.set b none

end Heap

structure File where
  cLines : Nat
  vaColor : Option (List ColorRec)
  heap : Heap

namespace File

/-- The colour records of the lines; without an array no line has a colour. -/
def colors (f : File) : List ColorRec := f.vaColor.getD (List.replicate f.cLines none)

/-- The attributes that are read for a line. -/
def attrs (f : File) (c : ColorRec) : Option Attrs := c.bind f.heap.contents

/-- An assignment to `cLines`; behind the lines the records are blank. -/
def setLength (f : File) (n : Nat) : File :=
  { f with
    cLines := n
    vaColor := f.vaColor.map fun colors =>
      colors.take n ++ List.replicate (n - colors.length) none }

end File

/-! ## Records -/

/-- The undo records with their colours. `was` are the colours at the time of a deletion; no
function reads it. -/
inductive Rec where
  | replace (line : Nat) (vColor : ColorRec) (length : Nat)
  | insert (line cLine length : Nat)
  | delete (line cLine : Nat) (vaColor : Option (List ColorRec)) (was : List (Option Attrs))
      (length : Nat)
  | boundary

def Rec.isBoundary : Rec → Bool
  | .boundary => true
  | _ => false

structure UndoList where
  cur : Rec
  blink : List Rec
  flink : List Rec
  cUndo : Int

def CreateUndoList : UndoList := ⟨.boundary, [], [], 0⟩

namespace UndoList

def head (u : UndoList) : Rec := u.flink.getLast?.getD u.cur

def setHead (u : UndoList) (r : Rec) : UndoList :=
  if u.flink = [] then { u with cur := r } else { u with flink := u.flink.dropLast ++ [r] }

end UndoList

def freeHeads : List Rec → Int → Int
  | [], c => c
  | r :: recs, c => freeHeads recs (if r.isBoundary then c - 1 else c)

def LinkAtHead (u : UndoList) (r : Rec) : UndoList :=
  ⟨r, u.cur :: u.blink, [], freeHeads u.flink.reverse u.cUndo⟩

def LogReplace (u : UndoList) (cLines line : Nat) (vColor : ColorRec) : UndoList :=
  match u.head with
  | .replace l c _ =>
    if l = line then u.setHead (.replace l c cLines)
    else LinkAtHead u (.replace line vColor cLines)
  | _ => LinkAtHead u (.replace line vColor cLines)

def LogInsert (u : UndoList) (cLines line n : Nat) : UndoList :=
  LinkAtHead u (.insert line n cLines)

def LogDelete (u : UndoList) (f : File) (start last : Nat) : UndoList :=
  let cLine := last - start + 1
  LinkAtHead u (.delete start cLine (f.vaColor.map fun colors => (colors.drop start).take cLine)
    (((f.colors.drop start).take cLine).map f.attrs) f.cLines)

def freeTails (limit : Nat) : List Rec → Int → Option (List Rec × Int)
  | [], c => if c ≤ limit then some ([], c) else none
  | [r], c => if c ≤ limit then some ([r], c) else none
  | r :: next :: recs, c =>
    if c ≤ limit then some (r :: next :: recs, c)
    else freeTails limit (next :: recs) (if next.isBoundary then c - 1 else c)

def LogBoundary (limit : Nat) (u : UndoList) : Option UndoList :=
  if u.cur.isBoundary then some u
  else do
    let u := LinkAtHead u .boundary
    let (recs, c) ← freeTails limit (u.cur :: u.blink).reverse (u.cUndo + 1)
    pure { u with blink := recs.reverse.tail, cUndo := c }

/-! ## Edits -/

structure Editor where
  file : File
  undo : UndoList

/-- The array is made when the first colour is put. -/
def putcolorline (line : Nat) (buf : Attrs) (f : File) : Option File :=
  if line ≥ f.cLines then some f
  else do
    let color ← f.colors[line]?
    let heap ←
      match color with
      | none => some f.heap
      | some b => f.heap.free b
    let (b, heap) := heap.malloc buf
    pure { f with vaColor := some (f.colors.set line (some b)), heap }

/-- What is saved of the colour of a line that is replaced: a copy of its block. -/
def copyColor (f : File) (line : Nat) : Option (ColorRec × Heap) :=
  match f.vaColor with
  | none => some (none, f.heap)
  | some colors => do
    let color ← colors[line]?
    match color with
    | none => pure (none, f.heap)
    | some b => do
      let buf ← f.heap.contents b
      let (va, heap) := f.heap.malloc buf
      pure (some va, heap)

/-- A logged replacement of a line's text. -/
def puttextline (line : Nat) (e : Editor) : Option Editor := do
  let f := if e.file.cLines ≤ line then e.file.setLength (line + 1) else e.file
  let (vColor, heap) ← copyColor f line
  pure ⟨{ f with heap }, LogReplace e.undo f.cLines line vColor⟩

def removeLines (f : File) (yStart yEnd : Nat) : File :=
  { f with
    cLines := f.cLines - (yEnd - yStart + 1)
    vaColor := f.vaColor.map fun colors => colors.take yStart ++ colors.drop (yEnd + 1) }

/-- Where `DelLine` does nothing. -/
def OutOfFile (f : File) (yStart : Nat) (yEnd : Int) : Prop :=
  yStart ≥ f.cLines ∨ (yStart : Int) > yEnd

instance (f : File) (yStart : Nat) (yEnd : Int) : Decidable (OutOfFile f yStart yEnd) :=
  inferInstanceAs (Decidable (_ ∨ _))

/-- The last line that `DelLine` deletes. -/
def lastLine (f : File) (yEnd : Int) : Nat := (min yEnd ((f.cLines : Int) - 1)).toNat

/-- `DelLine` without a record. -/
def delLines (yStart : Nat) (yEnd : Int) (f : File) : File :=
  if OutOfFile f yStart yEnd then f else removeLines f yStart (lastLine f yEnd)

def DelLine (yStart : Nat) (yEnd : Int) (e : Editor) : Editor :=
  if OutOfFile e.file yStart yEnd then e
  else
    ⟨delLines yStart yEnd e.file, LogDelete e.undo e.file yStart (lastLine e.file yEnd)⟩

/-- `InsLine` without a record. -/
def insLines (line n : Nat) (f : File) : File :=
  if line ≥ f.cLines then f
  else
    { f with
      cLines := f.cLines + n
      vaColor := f.vaColor.map fun colors =>
        colors.take line ++ (List.replicate n none ++ colors.drop line) }

def InsLine (line n : Nat) (e : Editor) : Editor :=
  if line ≥ e.file.cLines then e
  else ⟨insLines line n e.file, LogInsert e.undo e.file.cLines line n⟩

/-! ## Undo and redo -/

/-- The colour of the record goes into the line, and the one of the line nowhere. -/
def undoReplace (f : File) (line : Nat) (vColor : ColorRec) (length : Nat) : Option File :=
  match f.vaColor with
  | none => some (f.setLength length)
  | some colors =>
    if line < colors.length then
      some ({ f with vaColor := some (colors.set line vColor) }.setLength length)
    else none

/-- The copy from `rec->d.vaColor`, which may be -1. -/
def restoreColors (f : File) (line cLine : Nat) (vaColor : Option (List ColorRec)) : Option File :=
  match f.vaColor, vaColor with
  | none, _ => some f
  | some _, none => none
  | some colors, some saved =>
    some { f with vaColor := some (colors.take line ++ (saved ++ colors.drop (line + cLine))) }

/-- The change of `UnDoRec`. -/
def undoChange : Rec → File → Option File
  | .replace line vColor length, f => undoReplace f line vColor length
  | .insert line cLine length, f =>
    some ((delLines line ((line : Int) + cLine - 1) f).setLength length)
  | .delete line cLine vaColor _ length, f =>
    (restoreColors (insLines line cLine f) line cLine vaColor).map (·.setLength length)
  | .boundary, f => some f

def UnDoRec (e : Editor) : Option Editor := do
  let file ← undoChange e.undo.cur e.file
  match e.undo.blink with
  | [] => none
  | prev :: blink =>
    pure ⟨file, { e.undo with cur := prev, blink, flink := e.undo.cur :: e.undo.flink }⟩

/-- The change of `ReDoRec`; a redone replacement leaves the colour alone. -/
def redoChange : Rec → File → File
  | .replace _ _ length, f => f.setLength length
  | .insert line cLine length, f => (insLines line cLine f).setLength (length + cLine)
  | .delete line cLine _ _ length, f =>
    (delLines line ((line : Int) + cLine - 1) f).setLength (length - cLine)
  | .boundary, f => f

def ReDoRec (e : Editor) : Option Editor :=
  match e.undo.flink with
  | [] => none
  | next :: flink =>
    some ⟨redoChange e.undo.cur e.file,
      { e.undo with cur := next, blink := e.undo.cur :: e.undo.blink, flink }⟩

def untilBoundary (turn : Editor → Option Editor) : Nat → Editor → Option Editor
  | 0, _ => none
  | k + 1, e => do
    let e ← turn e
    if e.undo.cur.isBoundary then pure e else untilBoundary turn k e

def fundoable (fMeta : Bool) (u : UndoList) : Bool :=
  if fMeta then !u.flink.isEmpty else !u.blink.isEmpty

def zundo (limit : Nat) (fMeta : Bool) (e : Editor) : Option Editor :=
  if !fundoable fMeta e.undo then some e
  else do
    let undo ← LogBoundary limit e.undo
    if fMeta then untilBoundary ReDoRec undo.flink.length { e with undo }
    else untilBoundary UnDoRec undo.blink.length { e with undo }

inductive Op where
  | puttextline (line : Nat)
  | putColor (line : Nat) (buf : Attrs)
  | insLine (line n : Nat)
  | delLine (yStart : Nat) (yEnd : Int)
  | logBoundary
  | zundo (fMeta : Bool)

def step (limit : Nat) (e : Editor) : Op → Option Editor
  | .puttextline line => puttextline line e
  | .putColor line buf => (putcolorline line buf e.file).map ({ e with file := · })
  | .insLine line n => some (InsLine line n e)
  | .delLine yStart yEnd => some (DelLine yStart yEnd e)
  | .logBoundary => (LogBoundary limit e.undo).map ({ e with undo := · })
  | .zundo fMeta => zundo limit fMeta e

/-- A file just read, without colours. -/
def Editor.open (cLines : Nat) : Editor := ⟨⟨cLines, none, []⟩, CreateUndoList⟩

end SdkTools.Mep.Colors
