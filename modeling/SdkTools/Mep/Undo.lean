import Mathlib.Data.List.Basic

/-!
# The editor's line records and its undo list

`textline.c` and `undo.c` of MEP: the line array of a file, the logged edits and
the undo command. Line texts stand for their line records; a file is writable,
current and has its undo list. Colours, marks, events and the screen are left out.
-/

namespace SdkTools.Mep

set_option autoImplicit false

/-- The text a line record points at; a blank record has no text. -/
abbrev Text := List UInt8

def DELTA : Nat := 400

/-- The part of a file's descriptor that holds its lines: `plr` is the whole
allocated array, `cLines` of which are in the file. -/
structure File where
  cLines : Nat
  plr : List Text
deriving DecidableEq, Repr

def File.lSize (f : File) : Nat := f.plr.length

/-- Reads `n` line records at `src`. -/
def fetch (plr : List Text) (src n : Nat) : Option (List Text) :=
  if src + n ≤ plr.length then some ((plr.drop src).take n) else none

/-- Writes line records at `dst`. -/
def store (plr : List Text) (dst : Nat) (recs : List Text) : Option (List Text) :=
  if dst + recs.length ≤ plr.length then
    some (plr.take dst ++ recs ++ plr.drop (dst + recs.length))
  else none

def memmove (plr : List Text) (dst src n : Nat) : Option (List Text) := do
  let recs ← fetch plr src n
  store plr dst recs

def BlankLines (n : Nat) (plr : List Text) (dst : Nat) : Option (List Text) :=
  store plr dst (List.replicate n [])

def growline (line : Nat) (f : File) : File :=
  if f.plr = [] ∨ f.lSize < line then
    { f with plr := f.plr.take f.cLines ++ List.replicate (line + DELTA - f.cLines) [] }
  else f

/-- The undo records, without their links. -/
inductive Rec where
  | replace (line : Nat) (vLine : Text) (length : Nat)
  | insert (line cLine length : Nat)
  | delete (line cLine : Nat) (vaLines : List Text) (length : Nat)
  | boundary
deriving DecidableEq, Repr

def Rec.isBoundary : Rec → Bool
  | .boundary => true
  | _ => false

/-- The undo list seen from its current record: `blink` are the records before
it, the nearest first, `flink` the ones after it, the nearest first. The tail of
the list is the last of `blink`, its head the last of `flink`. -/
structure UndoList where
  cur : Rec
  blink : List Rec
  flink : List Rec
  cUndo : Int
deriving DecidableEq, Repr

def CreateUndoList : UndoList := ⟨.boundary, [], [], 0⟩

namespace UndoList

/-- The record at `vaUndoHead`. -/
def head (u : UndoList) : Rec := u.flink.getLast?.getD u.cur

/-- Overwrites the record at `vaUndoHead`. -/
def setHead (u : UndoList) (r : Rec) : UndoList :=
  if u.flink = [] then { u with cur := r } else { u with flink := u.flink.dropLast ++ [r] }

end UndoList

/-- `LinkAtHead` frees the records from the head back to the current one and
counts their boundaries down. -/
def freeHeads : List Rec → Int → Int
  | [], c => c
  | r :: recs, c => freeHeads recs (if r.isBoundary then c - 1 else c)

def LinkAtHead (u : UndoList) (r : Rec) : UndoList :=
  ⟨r, u.cur :: u.blink, [], freeHeads u.flink.reverse u.cUndo⟩

def LogReplace (u : UndoList) (cLines line : Nat) (vLine : Text) : UndoList :=
  match u.head with
  | .replace l v _ =>
    if l = line then u.setHead (.replace l v cLines)
    else LinkAtHead u (.replace line vLine cLines)
  | _ => LinkAtHead u (.replace line vLine cLines)

def LogInsert (u : UndoList) (cLines line n : Nat) : UndoList :=
  LinkAtHead u (.insert line n cLines)

def LogDelete (u : UndoList) (f : File) (start last : Nat) : Option UndoList := do
  let vaLines ← fetch f.plr start (last - start + 1)
  pure (LinkAtHead u (.delete start (last - start + 1) vaLines f.cLines))

/-- The loop of `LogBoundary` that frees records at the tail; the list is given
from its tail. Without a record after the freed one the list is broken. -/
def freeTails (limit : Nat) : List Rec → Int → Option (List Rec × Int)
  | [], c => if c ≤ limit then some ([], c) else none
  | [r], c => if c ≤ limit then some ([r], c) else none
  | r :: next :: recs, c =>
    if c ≤ limit then some (r :: next :: recs, c)
    else freeTails limit (next :: recs) (if next.isBoundary then c - 1 else c)

def LogBoundary (limit : Nat) (u : UndoList) : Option UndoList :=
  if u.cur.isBoundary then some u
  else do
    let u := LinkAtHead u .boundary
    let (recs, c) ← freeTails limit (u.cur :: u.blink).reverse (u.cUndo + 1)
    pure { u with blink := recs.reverse.tail, cUndo := c }

/-- A file with its undo list. -/
structure Editor where
  file : File
  undo : UndoList
deriving DecidableEq, Repr

/-- The text `buf` is the one stored, after trailing spaces and tabs are done. -/
def puttextline (line : Nat) (buf : Text) (e : Editor) : Option Editor := do
  let f := if e.file.cLines ≤ line then { growline (line + 1) e.file with cLines := line + 1 }
    else e.file
  let vLine ← f.plr[line]?
  let undo := LogReplace e.undo f.cLines line vLine
  pure ⟨{ f with plr := f.plr.set line buf }, undo⟩

/-- The block transfer of `DelLine` and what follows it. -/
def removeLines (f : File) (yStart yEnd : Nat) : Option File := do
  let plr ← memmove f.plr yStart (yEnd + 1) (f.cLines - yEnd - 1)
  let cLines := f.cLines - (yEnd - yStart + 1)
  let plr ← BlankLines (yEnd - yStart + 1) plr cLines
  pure ⟨cLines, plr⟩

def DelLine (fLog : Bool) (yStart : Nat) (yEnd : Int) (e : Editor) : Option Editor :=
  if yStart ≥ e.file.cLines ∨ (yStart : Int) > yEnd then some e
  else do
    let last := (min yEnd ((e.file.cLines : Int) - 1)).toNat
    let undo ← if fLog then LogDelete e.undo e.file yStart last else pure e.undo
    let file ← removeLines e.file yStart last
    pure ⟨file, undo⟩

/-- The growth, the block transfer and the blanking of `InsLine`. -/
def openLines (f : File) (line n : Nat) : Option File := do
  let f := growline (f.cLines + n) f
  let plr ← memmove f.plr (line + n) line (f.cLines - line)
  let plr ← BlankLines n plr line
  pure ⟨f.cLines + n, plr⟩

def InsLine (fLog : Bool) (line n : Nat) (e : Editor) : Option Editor :=
  if line ≥ e.file.cLines then some e
  else do
    let undo := if fLog then LogInsert e.undo e.file.cLines line n else e.undo
    let file ← openLines e.file line n
    pure ⟨file, undo⟩

/-- Swaps the line in the file with the line in the replace record. -/
def swapLine (f : File) (line length : Nat) (vLine : Text) : Option (File × Rec) := do
  let vlCur ← f.plr[line]?
  pure (⟨length, f.plr.set line vLine⟩, .replace line vlCur length)

/-- The change `UnDoRec` makes for the current record, and the record after it. -/
def undoChange (e : Editor) : Rec → Option (File × Rec)
  | .replace line vLine length => swapLine e.file line length vLine
  | .insert line cLine length => do
    let e' ← DelLine false line ((line : Int) + cLine - 1) e
    pure ({ e'.file with cLines := length }, .insert line cLine length)
  | .delete line cLine vaLines length => do
    let e' ← InsLine false line cLine e
    let plr ← store e'.file.plr line vaLines
    pure (⟨length, plr⟩, .delete line cLine vaLines length)
  | .boundary => pure (e.file, .boundary)

def UnDoRec (e : Editor) : Option Editor := do
  let (file, r) ← undoChange e e.undo.cur
  match e.undo.blink with
  | [] => none
  | prev :: blink =>
    pure ⟨file, { e.undo with cur := prev, blink := blink, flink := r :: e.undo.flink }⟩

/-- The change `ReDoRec` makes for the current record, and the record after it. -/
def redoChange (e : Editor) : Rec → Option (File × Rec)
  | .replace line vLine length => swapLine e.file line length vLine
  | .insert line cLine length => do
    let e' ← InsLine false line cLine e
    pure ({ e'.file with cLines := length + cLine }, .insert line cLine length)
  | .delete line cLine vaLines length => do
    let e' ← DelLine false line ((line : Int) + cLine - 1) e
    pure ({ e'.file with cLines := length - cLine }, .delete line cLine vaLines length)
  | .boundary => pure (e.file, .boundary)

def ReDoRec (e : Editor) : Option Editor := do
  let (file, r) ← redoChange e e.undo.cur
  match e.undo.flink with
  | [] => none
  | next :: flink =>
    pure ⟨file, { e.undo with cur := next, blink := r :: e.undo.blink, flink := flink }⟩

/-- The loop of `zundo`; each turn moves the current record on, so the records
ahead of it bound the turns. -/
def untilBoundary (turn : Editor → Option Editor) : Nat → Editor → Option Editor
  | 0, _ => none
  | k + 1, e => do
    let e ← turn e
    if e.undo.cur.isBoundary then pure e else untilBoundary turn k e

def fundoable (fMeta : Bool) (u : UndoList) : Bool :=
  if fMeta then !u.flink.isEmpty else !u.blink.isEmpty

def zundo (limit : Nat) (fMeta : Bool) (e : Editor) : Option Editor :=
  if !fundoable fMeta e.undo then some e
  else do
    let undo ← LogBoundary limit e.undo
    if fMeta then untilBoundary ReDoRec undo.flink.length { e with undo := undo }
    else untilBoundary UnDoRec undo.blink.length { e with undo := undo }

/-- What the user of the file may do; the edits are logged. -/
inductive Op where
  | puttextline (line : Nat) (buf : Text)
  | insLine (line n : Nat)
  | delLine (yStart : Nat) (yEnd : Int)
  | logBoundary
  | zundo (fMeta : Bool)
deriving DecidableEq, Repr

def step (limit : Nat) (e : Editor) : Op → Option Editor
  | .puttextline line buf => puttextline line buf e
  | .insLine line n => InsLine true line n e
  | .delLine yStart yEnd => DelLine true yStart yEnd e
  | .logBoundary => (LogBoundary limit e.undo).map ({ e with undo := · })
  | .zundo fMeta => zundo limit fMeta e

def run (limit : Nat) : Editor → List Op → Option Editor
  | e, [] => some e
  | e, op :: ops => do
    let e ← step limit e op
    run limit e ops

/-- A file just read, with its list of one boundary. -/
def Editor.open (f : File) : Editor := ⟨f, CreateUndoList⟩

/-- The lines of the file, as a reader of the file sees them. -/
def File.lines (f : File) : List Text := f.plr.take f.cLines

theorem run_append (limit : Nat) (e : Editor) (ops ops' : List Op) :
    run limit e (ops ++ ops') = (run limit e ops).bind (run limit · ops') := by
  induction ops generalizing e with
  | nil => rfl
  | cons op ops ih =>
    show (step limit e op).bind (fun e' => run limit e' (ops ++ ops')) =
      ((step limit e op).bind fun e' => run limit e' ops).bind (run limit · ops')
    cases step limit e op with
    | none => rfl
    | some e' => exact ih e'

end SdkTools.Mep
