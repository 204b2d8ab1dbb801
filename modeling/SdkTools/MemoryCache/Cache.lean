import Mathlib
import SdkTools.MemoryCache.Splay
import SdkTools.Types

/-!
# The memory cache

`mcache.cpp`: the nodes of a cache hold pieces of the target's memory, in a splay tree ordered
by their offsets. Nodes, calls of `malloc` and calls of `ReadUncached` are numbered as they come;
addresses and sizes are numbers, reduced where the source's types reduce them.
-/

namespace SdkTools.MemoryCache

open Lib

set_option autoImplicit false

/-! ### Numbers -/

/-- The cast `(ULONG)n`. -/
@[irreducible] def ulong (n : Nat) : Nat := n % 2 ^ 32

/-- The value of a sum in a `ULONG64`. -/
@[irreducible] def ulong64 (n : Nat) : Nat := n % 2 ^ 64

/-- `x - y` of two `ULONG`s. -/
@[irreducible] def ulongSub (x y : Nat) : Nat := ulong (x + 2 ^ 32 - y)

theorem ulong_of_lt {n : Nat} (h : n < 2 ^ 32) : ulong n = n := by
  unfold ulong
  exact Nat.mod_eq_of_lt h

theorem ulong64_of_lt {n : Nat} (h : n < 2 ^ 64) : ulong64 n = n := by
  unfold ulong64
  exact Nat.mod_eq_of_lt h

theorem ulongSub_of_le {x y : Nat} (hle : y ≤ x) (hx : x < 2 ^ 32) : ulongSub x y = x - y := by
  unfold ulongSub ulong
  omega

/-! ### Nodes -/

/-- What `u` holds, as `C_ERROR` tells, and whether `C_DONTEXTEND` is set. `Data` is the valid
part of the buffer. -/
inductive CacheContents where
  | data (Data : List UCHAR) (dontExtend : Bool)
  | error (Status : HRESULT)

structure CACHE where
  Offset : Nat
  u : CacheContents

namespace CACHE

variable (c : CACHE)

def isError : Bool :=
  match c.u with
  | .data _ _ => false
  | .error _ => true

def Data : List UCHAR :=
  match c.u with
  | .data Data _ => Data
  | .error _ => []

def dontExtend : Bool :=
  match c.u with
  | .data _ dontExtend => dontExtend
  | .error _ => false

/-- An error is cached for one byte. -/
def Length : Nat :=
  match c.u with
  | .data Data _ => Data.length
  | .error _ => 1

end CACHE

def LARGECACHENODE : Nat := 1024

def CONTROL_C_EXIT : HRESULT := hresultFromNt 0xC000013A
def UNSUCCESSFUL : HRESULT := hresultFromNt 0xC0000001
def PARTIAL_COPY : HRESULT := 0x8007012B

/-! ### The target and the cache -/

/-- The bytes that can be read. -/
abbrev Memory := Nat → Option UCHAR

structure Target where
  sizeof_CACHE : Nat
  sizeof_pos : 0 < sizeof_CACHE
  sizeof_le : sizeof_CACHE ≤ 1024
  /-- Whether this call of `malloc` succeeds. -/
  malloc : Nat → Bool
  /-- This call, for an address and a length. -/
  ReadUncached : Memory → Nat → Nat → Nat → HRESULT × List UCHAR
  /-- The bytes written, for an address, and the memory afterwards. -/
  WriteUncached : Memory → Nat → List UCHAR → (HRESULT × Nat) × Memory
  m_SystemRangeStart : Nat

structure State where
  links : Links Nat
  entry : Nat → CACHE
  m_Root : Option Nat
  m_MaxSize : Nat
  m_UserSize : Nat
  m_Misses : Nat
  m_Size : Nat
  m_NodeCount : Nat
  m_PurgeOverride : Bool
  m_DecodePTEs : Bool
  m_ForceDecodePTEs : Bool
  m_Suspend : Nat
  /-- The nodes allocated are those below this number. -/
  allocated : Nat
  freed : List Nat
  mallocs : Nat
  reads : Nat

/-- The constructor. -/
def create (links : Links Nat) (entry : Nat → CACHE) (MaxSize : Nat) : State where
  links := links
  entry := entry
  m_Root := none
  m_MaxSize := MaxSize
  m_UserSize := MaxSize
  m_Misses := 0
  m_Size := 0
  m_NodeCount := 0
  m_PurgeOverride := false
  m_DecodePTEs := true
  m_ForceDecodePTEs := false
  m_Suspend := 0
  allocated := 0
  freed := []
  mallocs := 0
  reads := 0


/-! ### Assignments -/

namespace State

@[simps -fullyApplied] def setTree (s : State) (h : Links Nat) (root : Option Nat) : State :=
  { s with links := h, m_Root := root }

@[simps -fullyApplied] def setEntry (s : State) (Node : Nat) (c : CACHE) : State :=
  { s with entry := Function.update s.entry Node c }

@[simps -fullyApplied] def setCount (s : State) (n : Nat) : State := { s with m_NodeCount := n }

@[simps -fullyApplied] def setSize (s : State) (n : Nat) : State := { s with m_Size := n }

@[simps -fullyApplied] def setMisses (s : State) (n : Nat) : State := { s with m_Misses := n }

@[simps -fullyApplied] def countMalloc (s : State) : State := { s with mallocs := s.mallocs + 1 }

@[simps -fullyApplied] def countRead (s : State) : State := { s with reads := s.reads + 1 }

@[simps -fullyApplied] def addNode (s : State) : State := { s with allocated := s.allocated + 1 }

@[simps -fullyApplied] def addFreed (s : State) (Node : Nat) : State :=
  { s with freed := Node :: s.freed }

@[simp] theorem setTree_setTree (s : State) (h h' : Links Nat) (root root' : Option Nat) :
    (s.setTree h root).setTree h' root' = s.setTree h' root' := rfl

end State

/-! ### Memory of the cache -/

def Alloc (T : Target) (s : State) (Length : Nat) : Bool × State :=
  if ulong (s.m_Size + Length) > s.m_MaxSize then (false, s)
  else if T.malloc s.mallocs then
    (true, (s.setSize (ulong (s.m_Size + Length))).countMalloc)
  else (false, (s.setSize (ulong (s.m_MaxSize + 1))).countMalloc)

def Free (s : State) (Length : Nat) : State := s.setSize (ulongSub s.m_Size Length)

/-- `Alloc(sizeof(CACHE))`. -/
def allocNode (T : Target) (s : State) : Option Nat × State :=
  match Alloc T s T.sizeof_CACHE with
  | (true, s) => (some s.allocated, s.addNode)
  | (false, s) => (none, s)

/-- `Free((PUCHAR)Node, sizeof(CACHE))`. -/
def freeNode (T : Target) (s : State) (Node : Nat) : State :=
  (Free s T.sizeof_CACHE).addFreed Node

/-- Data and a node; when one of them fails the other one is freed. -/
def allocBoth (T : Target) (s : State) (Length : Nat) : Option Nat × State :=
  match Alloc T s Length with
  | (true, s) =>
    match allocNode T s with
    | (some Node, s) => (some Node, s)
    | (none, s) => (none, Free s Length)
  | (false, s) =>
    match allocNode T s with
    | (some Node, s) => (none, freeNode T s Node)
    | (none, s) => (none, s)

/-! ### The tree -/

section

variable (s : State)

/-- The loop of `Lookup`: a node, and the length searched. -/
def lookupLoop (Offset : Nat) : Nat → Option Nat → Nat → Nat → Option Nat →
    Option (Option Nat × Nat)
  | 0, _, _, _, _ => none
  | _ + 1, none, Length, _, Node2 => some (Node2, Length)
  | fuel + 1, some Node, Length, SumOffsetLength, Node2 =>
    let c := s.entry Node
    if SumOffsetLength ≤ c.Offset then
      lookupLoop Offset fuel (s.links.child false Node) Length SumOffsetLength Node2
    else if ulong64 (c.Offset + c.Length) ≤ Offset then
      lookupLoop Offset fuel (s.links.child true Node) Length SumOffsetLength Node2
    else if c.Offset ≤ Offset then some (some Node, Length)
    else
      -- a node closer to the start may match
      lookupLoop Offset fuel (s.links.child false Node) (ulong (c.Offset - Offset)) c.Offset
        (some Node)

/-- The length searched and its end, which are cut where they wrap. -/
def searchRange (Offset Length : Nat) : Nat × Nat :=
  let Length := if Length < 0x80 ∧ s.m_Misses > 3 then 0x80 else Length
  let SumOffsetLength := ulong64 (Offset + Length)
  if SumOffsetLength < Length then (ulong (2 ^ 64 - Offset), 2 ^ 64 - 1)
  else (Length, SumOffsetLength)

def Lookup (Offset Length : Nat) : Option (Option Nat × Nat) :=
  let range := searchRange s Offset Length
  lookupLoop s Offset (s.allocated + 1) s.m_Root range.1 range.2 none

/-- The node under which an address goes, and the side. -/
def insertPlace (BaseAddress : Nat) : Nat → Nat → Option (Nat × Bool)
  | 0, _ => none
  | fuel + 1, Node2 =>
    let d : Bool := ¬ BaseAddress < (s.entry Node2).Offset
    match s.links.child d Node2 with
    | some Node2 => insertPlace BaseAddress fuel Node2
    | none => some (Node2, d)

end

def RtlInitializeSplayLinks (h : Links Nat) (x : Nat) : Links Nat :=
  setChild (setChild (setParent h x x) false x none) true x none

/-- `RtlInsertAsLeftChild` and `RtlInsertAsRightChild`. -/
def RtlInsertAsChild (h : Links Nat) (d : Bool) (Parent Child : Nat) : Links Nat :=
  setParent (setChild h d Parent (some Child)) Child Parent

def InsertNode (s : State) (Node : Nat) : Option State :=
  let h := RtlInitializeSplayLinks s.links Node
  let s := s.setCount (ulong (s.m_NodeCount + 1))
  match s.m_Root with
  | none => some (s.setTree h (some Node))
  | some root =>
    let s := s.setTree h (some root)
    match insertPlace s (s.entry Node).Offset s.allocated root with
    | none => none
    | some (Node2, d) =>
      (pRtlSplay s.allocated (RtlInsertAsChild h d Node2 Node) Node2).map fun (h, root) =>
        s.setTree h (some root)

/-- A node leaves the tree and is freed with its data. -/
def removeNode (T : Target) (s : State) (Node : Nat) : Option State :=
  (pRtlDelete s.allocated s.links Node).map fun (h, root) =>
    let c := s.entry Node
    let s := s.setTree h root
    let s := if c.isError then s else Free s c.Length
    (freeNode T s Node).setCount (ulongSub s.m_NodeCount 1)

def removeLoop (T : Target) (BaseAddress TransferCount : Nat) : Nat → State → Option State
  | 0, _ => none
  | fuel + 1, s =>
    match Lookup s BaseAddress TransferCount with
    | none => none
    | some (none, _) => some s
    | some (some Node, _) =>
      (removeNode T s Node).bind (removeLoop T BaseAddress TransferCount fuel)

def Remove (T : Target) (s : State) (BaseAddress TransferCount : Nat) : Option State :=
  removeLoop T BaseAddress TransferCount (s.allocated + 1) s

def Add (T : Target) (s : State) (BaseAddress : Nat) (UserBuffer : List UCHAR) :
    Option State :=
  if s.m_MaxSize = 0 then some s
  else
    (Remove T s BaseAddress UserBuffer.length).bind fun s =>
      match allocBoth T s UserBuffer.length with
      | (none, s) => some s
      | (some Node, s) =>
        InsertNode (s.setEntry Node ⟨BaseAddress, .data UserBuffer false⟩) Node

/-! ### Purging -/

/-- The walk of `Empty` and `PurgeType` from a node: it takes the children off their nodes, and
visits a node without children before it goes up. The parent of `top` is NULL. -/
def purgeWalk (visit : State → Nat → Option State) (top : Nat) :
    Nat → Option Nat → State → Option State
  | 0, _, _ => none
  | _ + 1, none, s => some s
  | fuel + 1, some Node, s =>
    match s.links.child false Node with
    | some Node2 =>
      purgeWalk visit top fuel (some Node2) (s.setTree (setChild s.links false Node none) s.m_Root)
    | none =>
      match s.links.child true Node with
      | some Node2 =>
        purgeWalk visit top fuel (some Node2)
          (s.setTree (setChild s.links true Node none) s.m_Root)
      | none =>
        let Node2 := if Node = top then none else some (s.links.parent Node)
        (visit s Node).bind (purgeWalk visit top fuel Node2)

/-- `free` of a node and of its data. -/
def emptyVisit (s : State) (Node : Nat) : Option State :=
  some (s.addFreed Node)

def Empty (s : State) : Option State :=
  let s := s.setMisses 0
  match s.m_Root with
  | none => some s
  | some root =>
    if s.m_PurgeOverride then some s
    else
      (purgeWalk emptyVisit root (2 * s.allocated) (some root) s).map fun s =>
        ((s.setSize 0).setCount 0).setTree s.links none

/-- Whether `PurgeType` removes the node. -/
def purges (T : Target) (type : Nat) (c : CACHE) : Bool :=
  c.isError || (type == 1 && decide (c.Offset < T.m_SystemRangeStart))

def purgeVisit (T : Target) (type : Nat) (s : State) (Node : Nat) : Option State :=
  let c := s.entry Node
  let s := s.setCount (ulongSub s.m_NodeCount 1)
  if c.isError then some (freeNode T s Node)
  else if type = 1 ∧ c.Offset < T.m_SystemRangeStart then
    some (freeNode T (Free s c.Length) Node)
  else InsertNode s Node

def PurgeType (T : Target) (s : State) (type : Nat) : Option State :=
  match s.m_Root with
  | none => some s
  | some root =>
    purgeWalk (purgeVisit T type) root (2 * s.allocated) (some root) (s.setTree s.links none)

/-! ### Reading -/

/-- The variables of `Read`. `*BytesRead` is the length of what is in `UserBuffer`. -/
structure ReadState where
  cache : State
  BaseAddress : Nat
  TransferCount : Nat
  UserBuffer : List UCHAR
  Node : Option Nat
  NextLength : Nat

structure ReadResult where
  Status : HRESULT
  UserBuffer : List UCHAR
  cache : State

/-- `*BytesRead > 0 ? S_OK : Status` -/
def partialStatus (UserBuffer : List UCHAR) (Status : HRESULT) : HRESULT :=
  if UserBuffer = [] then Status else S_OK

/-- The new node gets its contents and its place. -/
def insertFilled (s : State) (Node : Nat) (c : CACHE) :
    Option (Except ReadResult (State × Nat)) :=
  (InsertNode (s.setEntry Node c) Node).map fun s => .ok (s, Node)

section

variable (T : Target) (mem : Memory)

def ReadDirect (r : ReadState) : ReadResult :=
  let answer := T.ReadUncached mem r.cache.reads r.BaseAddress r.TransferCount
  let buffer := r.UserBuffer ++ answer.2
  { Status := if answer.1 ≠ CONTROL_C_EXIT then partialStatus buffer answer.1 else answer.1
    UserBuffer := buffer
    cache := r.cache.countRead }

/-- The missing leading data go into a new node. -/
def readMissing (r : ReadState) (NextLength : Nat) : Option (Except ReadResult (State × Nat)) :=
  match allocBoth T r.cache NextLength with
  | (none, s) => some (.error (ReadDirect T mem { r with cache := s }))
  | (some Node, s) =>
    let answer := T.ReadUncached mem s.reads r.BaseAddress NextLength
    let s := (s.setMisses (ulong (s.m_Misses + 1))).countRead
    if answer.1 = CONTROL_C_EXIT then
      some (.error ⟨answer.1, r.UserBuffer, freeNode T (Free s NextLength) Node⟩)
    else if answer.1 ≠ S_OK then
      let s := Free s NextLength
      if answer.1 ≠ UNSUCCESSFUL ∧ answer.1 ≠ PARTIAL_COPY then
        some (.error ⟨partialStatus r.UserBuffer answer.1, r.UserBuffer, freeNode T s Node⟩)
      else insertFilled s Node ⟨r.BaseAddress, .error answer.1⟩
    else if answer.2.length ≠ NextLength then
      insertFilled (Free s (ulongSub NextLength answer.2.length)) Node
        ⟨r.BaseAddress, .data answer.2 true⟩
    else insertFilled s Node ⟨r.BaseAddress, .data answer.2 false⟩

/-- The node is extended to include missing data. -/
def extendNode (r : ReadState) (Node : Nat) : Except ReadResult ReadState :=
  let c := r.cache.entry Node
  if c.dontExtend then .ok { r with Node := none }
  else
    match Alloc T r.cache (ulong (c.Length + r.NextLength)) with
    | (false, s) => .ok { r with cache := s, Node := none }
    | (true, s) =>
      let s := Free s c.Length
      let answer := T.ReadUncached mem s.reads r.BaseAddress r.NextLength
      let s := (s.setMisses (ulong (s.m_Misses + 1))).countRead
      if answer.1 = CONTROL_C_EXIT then
        .error ⟨answer.1, r.UserBuffer, Free s r.NextLength⟩
      else if answer.1 ≠ S_OK then
        let s := s.setEntry Node { c with u := .data c.Data true }
        .error ⟨partialStatus r.UserBuffer answer.1, r.UserBuffer, Free s r.NextLength⟩
      else
        let short : Bool := answer.2.length ≠ r.NextLength
        let s := if short then Free s (ulongSub r.NextLength answer.2.length) else s
        let c := { c with u := .data (c.Data ++ answer.2) short }
        .ok { r with cache := s.setEntry Node c, Node := some Node }

/-- Only get enough data to reach the neighboring node. -/
def reachNode (r : ReadState) (Node Node2 : Nat) : Except ReadResult ReadState :=
  let NextLength := ulong ((r.cache.entry Node2).Offset + 2 ^ 64 - r.BaseAddress)
  if NextLength = 0 then .ok { r with Node := some Node2, NextLength := NextLength }
  else extendNode T mem { r with NextLength := NextLength } Node

/-- The data of the second node are adjoined to those of the first one. -/
def mergeNodes (s : State) (Node Node2 : Nat) : Option State :=
  let c := s.entry Node
  let d := s.entry Node2
  let s := s.setEntry Node { c with u := .data (c.Data ++ d.Data) c.dontExtend }
  removeNode T (Free s c.Length) Node2

/-- Look for another cache node with more data. -/
def readMore (r : ReadState) (Node : Nat) : Option (Except ReadResult ReadState) :=
  match Lookup r.cache r.BaseAddress r.TransferCount with
  | none => none
  | some (none, NextLength) =>
    if (r.cache.entry Node).Length > LARGECACHENODE then
      some (.ok { r with Node := none, NextLength := NextLength })
    else some (extendNode T mem { r with NextLength := NextLength } Node)
  | some (some Node2, NextLength) =>
    let c := r.cache.entry Node
    let d := r.cache.entry Node2
    if !d.isError ∧ d.Offset = r.BaseAddress ∧ ulong (d.Length + c.Length) < LARGECACHENODE then
      match Alloc T r.cache (ulong (c.Length + d.Length)) with
      | (true, s) =>
        (mergeNodes T s Node Node2).map fun s =>
          .ok { r with cache := s, Node := some Node, NextLength := NextLength }
      | (false, s) => some (reachNode T mem { r with cache := s } Node Node2)
    else some (reachNode T mem r Node Node2)

/-- Move available data to `UserBuffer`. -/
def deliver (r : ReadState) (Node : Nat) : Option (Except ReadResult ReadState) :=
  let c := r.cache.entry Node
  match c.u with
  | .error Status =>
    some (.error ⟨partialStatus r.UserBuffer Status, r.UserBuffer, r.cache⟩)
  | .data Data _ =>
    let bytes := (Data.drop (ulong (r.BaseAddress - c.Offset))).take r.TransferCount
    let r := { r with
      BaseAddress := ulong64 (r.BaseAddress + bytes.length)
      TransferCount := r.TransferCount - bytes.length
      UserBuffer := r.UserBuffer ++ bytes }
    if r.TransferCount = 0 then some (.error ⟨S_OK, r.UserBuffer, r.cache⟩)
    else readMore T mem r Node

/-- The node that has the leading data, after they are read if they are missing. -/
def leadingNode (r : ReadState) : Option (Except ReadResult (State × Nat)) :=
  match r.Node with
  | none => readMissing T mem r r.NextLength
  | some Node =>
    let Offset := (r.cache.entry Node).Offset
    if Offset > r.BaseAddress then readMissing T mem r (ulong (Offset - r.BaseAddress))
    else some (.ok (r.cache, Node))

def readLoop : Nat → ReadState → Option ReadResult
  | 0, _ => none
  | fuel + 1, r =>
    match leadingNode T mem r with
    | none => none
    | some (.error result) => some result
    | some (.ok (s, Node)) =>
      match deliver T mem { r with cache := s } Node with
      | none => none
      | some (.error result) => some result
      | some (.ok r) => readLoop fuel r

def Read (s : State) (BaseAddress TransferCount : Nat) : Option ReadResult :=
  if TransferCount = 0 then some ⟨S_OK, [], s⟩
  else if s.m_MaxSize = 0 ∨ s.m_Suspend ≠ 0 then
    some (ReadDirect T mem ⟨s, BaseAddress, TransferCount, [], none, 0⟩)
  else
    match Lookup s BaseAddress TransferCount with
    | none => none
    | some (Node, NextLength) =>
      readLoop T mem TransferCount ⟨s, BaseAddress, TransferCount, [], Node, NextLength⟩

/-- The answer and the memory of `WriteUncached`, with the cache. -/
def Write (s : State) (BaseAddress : Nat) (UserBuffer : List UCHAR) :
    Option (((HRESULT × Nat) × Memory) × State) :=
  (Remove T s BaseAddress UserBuffer.length).map fun s =>
    (T.WriteUncached mem BaseAddress UserBuffer, s)

end

end SdkTools.MemoryCache
