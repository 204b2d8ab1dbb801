import Mathlib.Logic.Function.Basic
import SdkTools.M4.Holds

/-!
# The macro table of m4

`hash.c`, the macro nodes and value nodes of `obj.c`, the operators of `define.c` and `builtin.c`
that use them, and `InitPredefs`. The blocks that `pvAllocCb` gives are numbered; a block that has
been freed, or was never given, must not be used.
-/

namespace SdkTools.M4.MacroTable

set_option autoImplicit false

/-! ### Memory -/

/-- The text of a token in the heap; no block is allocated for an empty one. -/
abbrev PTCH := Option Nat

structure MAC where
  pmacNext : Option Nat
  tokName : PTCH
  pval : Option Nat

structure VAL where
  tok : PTCH
  fTrace : Bool
  pvalPrev : Option Nat

structure Heap where
  mphashpmac : BitVec 32 → Option Nat
  mac : Nat → MAC
  val : Nat → VAL
  text : Nat → Text
  allocated : Nat
  freed : List Nat

namespace Heap

variable (h : Heap)

def live (p : Nat) : Bool := decide (p < h.allocated ∧ p ∉ h.freed)

def setMac (p : Nat) (mac : MAC) : Heap := { h with mac := Function.update h.mac p mac }

def setVal (p : Nat) (val : VAL) : Heap := { h with val := Function.update h.val p val }

def pmac (p : Nat) : Except Stop MAC := if h.live p then .ok (h.mac p) else .error .undefined

def pval (p : Nat) : Except Stop VAL := if h.live p then .ok (h.val p) else .error .undefined

def ptch : PTCH → Except Stop Text
  | none => .ok []
  | some p => if h.live p then .ok (h.text p) else .error .undefined

def freePv (p : Nat) : Except Stop Heap :=
  if h.live p then .ok { h with freed := p :: h.freed } else .error .undefined

def freePtok : PTCH → Except Stop Heap
  | none => .ok h
  | some p => h.freePv p

/-- The copy of a text; nothing is allocated for no characters. -/
def dupPtokPtok (ptok : Text) : PTCH × Heap :=
  if ptok = [] then (none, h)
  else (some h.allocated, { h with
    text := Function.update h.text h.allocated ptok
    allocated := h.allocated + 1 })

/-! ### Values -/

/-- The topmost value is freed. -/
def popdefPmac (pmac : Nat) : Except Stop Heap := do
  let mac ← h.pmac pmac
  match mac.pval with
  | none => .error .undefined
  | some pval => do
    let val ← h.pval pval
    let h ← h.freePtok val.tok
    let h ← h.freePv pval
    .ok (h.setMac pmac { mac with pval := val.pvalPrev })

/-- Redefinition resets the trace. -/
def pushdefPmacPtok (pmac : Nat) (ptok : Text) : Except Stop Heap := do
  let mac ← h.pmac pmac
  let pval := h.allocated
  let (tok, h) := dupPtokPtok { h with allocated := h.allocated + 1 } ptok
  .ok ((h.setVal pval ⟨tok, false, mac.pval⟩).setMac pmac { mac with pval := some pval })

/-! ### Macros -/

end Heap

def g_hashMod : BitVec 32 := 37

/-- A `TCHAR` is signed. -/
def hashPtok (ptok : Text) : BitVec 32 :=
  ptok.foldl (fun (hash : BitVec 32) (tch : TCH) =>
    hash + ((hash <<< (1 : Nat)) + (hash >>> (1 : Nat)) + tch.signExtend 32)) 0 % g_hashMod

def fEqPtokPtok (ptok1 ptok2 : Text) : Bool :=
  decide (ptok1.length = ptok2.length) && decide (ptok1 = ptok2.take ptok1.length)

def fIdentPtok (ptok : Text) : Bool := !ptok.isEmpty && ptok.all fIdentTch

namespace Heap

variable (h : Heap)

def findLoop (ptok : Text) : Nat → Option Nat → Except Stop (Option Nat)
  | 0, _ => .error .fuel
  | _ + 1, none => .ok none
  | fuel + 1, some pmac => do
    let mac ← h.pmac pmac
    let name ← h.ptch mac.tokName
    if fEqPtokPtok name ptok then .ok (some pmac) else findLoop ptok fuel mac.pmacNext

def pmacFindPtok (ptok : Text) : Except Stop (Option Nat) :=
  h.findLoop ptok (h.allocated + 1) (h.mphashpmac (hashPtok ptok))

def pmacGetPtok (ptok : Text) : Except Stop (Nat × Heap) := do
  match ← h.pmacFindPtok ptok with
  | some pmac => .ok (pmac, h)
  | none =>
    let pmac := h.allocated
    let (tokName, h) := dupPtokPtok { h with allocated := h.allocated + 1 } ptok
    let hash := hashPtok ptok
    let h := h.setMac pmac ⟨h.mphashpmac hash, tokName, none⟩
    .ok (pmac, { h with mphashpmac := Function.update h.mphashpmac hash (some pmac) })

/-- The `pmacNext` of a macro, or the head of the chain. -/
def next (hash : BitVec 32) : Option Nat → Except Stop (Option Nat)
  | none => .ok (h.mphashpmac hash)
  | some pmacDad => do
    let mac ← h.pmac pmacDad
    .ok mac.pmacNext

def setNext (hash : BitVec 32) (pmacNext : Option Nat) : Option Nat → Heap
  | none => { h with mphashpmac := Function.update h.mphashpmac hash pmacNext }
  | some pmacDad => h.setMac pmacDad { h.mac pmacDad with pmacNext }

/-- The loop of `FreePmac` that looks for what points to the macro. -/
def dadLoop (hash : BitVec 32) (pmac : Nat) : Nat → Option Nat → Except Stop (Option Nat)
  | 0, _ => .error .fuel
  | fuel + 1, pmacDad => do
    match ← h.next hash pmacDad with
    | none => .error .undefined
    | some p => if p = pmac then .ok pmacDad else dadLoop hash pmac fuel (some p)

/-- The loop of `FreePmac` that frees the values. -/
def freeValues (pmac : Nat) : Nat → Heap → Except Stop Heap
  | 0, _ => .error .fuel
  | fuel + 1, h => do
    let mac ← h.pmac pmac
    if mac.pval.isSome then
      let h ← h.popdefPmac pmac
      freeValues pmac fuel h
    else .ok h

def freePmac (pmac : Nat) : Except Stop Heap := do
  let mac ← h.pmac pmac
  let name ← h.ptch mac.tokName
  let hash := hashPtok name
  let pmacDad ← h.dadLoop hash pmac (h.allocated + 1) none
  let h := h.setNext hash mac.pmacNext pmacDad
  let h ← freeValues pmac (h.allocated + 1) h
  let h ← h.freePtok mac.tokName
  h.freePv pmac

end Heap

/-! ### Operators -/

/-- The table, what the streams still hold, and the global trace. -/
structure Machine where
  heap : Heap
  input : Text
  g_fTrace : Bool

namespace Machine

variable (m : Machine)

def pushPtok (ptok : Text) : Machine := { m with input := ptok ++ m.input }

def pushQuotedPtok (ptok : Text) : Machine :=
  { m with input := tchLquo :: (ptok ++ tchRquo :: m.input) }

/-- `PopdefPmac` if there is a previous value and this is no push. -/
def opDefineOrPushdef (name : Text) (argv : List Text) (fPush : Bool) : Except Stop Machine :=
  match argv with
  | [] => .ok (m.pushQuotedPtok name)
  | ptok :: argv =>
    if fIdentPtok ptok then do
      let (pmac, h) ← m.heap.pmacGetPtok ptok
      let mac ← h.pmac pmac
      let h ← if !fPush && mac.pval.isSome then h.popdefPmac pmac else .ok h
      let h ← h.pushdefPmacPtok pmac (argv.headD [])
      .ok { m with heap := h }
    else .error (.die "invalid macro name")

def opcPopdef (ptok : Text) : Except Stop Machine := do
  match ← m.heap.pmacFindPtok ptok with
  | none => .ok m
  | some pmac => do
    let mac ← m.heap.pmac pmac
    match mac.pval with
    | none => .error .undefined
    | some pval => do
      let val ← m.heap.pval pval
      let h ← if val.pvalPrev.isSome then m.heap.popdefPmac pmac else m.heap.freePmac pmac
      .ok { m with heap := h }

def opcUndefine (ptok : Text) : Except Stop Machine := do
  match ← m.heap.pmacFindPtok ptok with
  | none => .ok m
  | some pmac => do
    let h ← m.heap.freePmac pmac
    .ok { m with heap := h }

/-- `pmac->pval`, at a macro that `pmacFindPtok` has found. -/
def topVal (pmac : Nat) : Except Stop (Nat × VAL) := do
  let mac ← m.heap.pmac pmac
  match mac.pval with
  | none => .error .undefined
  | some pval => do
    let val ← m.heap.pval pval
    .ok (pval, val)

def opcDefn (ptok : Text) : Except Stop Machine := do
  match ← m.heap.pmacFindPtok ptok with
  | none => .ok m
  | some pmac => do
    let (_, val) ← m.topVal pmac
    let text ← m.heap.ptch val.tok
    .ok (m.pushQuotedPtok text)

def opcTraceonoff (dw : Bool) (ptok : Text) : Except Stop Machine := do
  match ← m.heap.pmacFindPtok ptok with
  | none => .ok m
  | some pmac => do
    let (pval, val) ← m.topVal pmac
    .ok { m with heap := m.heap.setVal pval { val with fTrace := dw } }

def opIfdef (name : Text) (argv : List Text) : Except Stop Machine :=
  if argv.length ≥ 2 then do
    match ← m.heap.pmacFindPtok (argv.getD 0 []) with
    | some _ => .ok (m.pushPtok (argv.getD 1 []))
    | none => .ok (m.pushPtok (argv.getD 2 []))
  else if argv.length = 0 then .ok (m.pushQuotedPtok name)
  else .ok m

/-- `EachOpcArgvDw` -/
def eachOpcArgv (opc : Machine → Text → Except Stop Machine) :
    List Text → Machine → Except Stop Machine
  | [], m => .ok m
  | ptok :: argv, m => do
    let m ← opc m ptok
    eachOpcArgv opc argv m

/-- What `CrackleArgv` finds: the value of a macro and whether it is traced. -/
def valueOf (ptok : Text) : Except Stop (Option (Text × Bool)) := do
  match ← m.heap.pmacFindPtok ptok with
  | none => .ok none
  | some pmac => do
    let (_, val) ← m.topVal pmac
    let text ← m.heap.ptch val.tok
    .ok (some (text, m.g_fTrace || val.fTrace))

end Machine

/-- A call of one of the operators; `name` is `$0`. -/
inductive Call where
  | define (name : Text) (argv : List Text)
  | pushdef (name : Text) (argv : List Text)
  | popdef (argv : List Text)
  | undefine (argv : List Text)
  | defn (argv : List Text)
  | ifdef (name : Text) (argv : List Text)
  | traceon (argv : List Text)
  | traceoff (argv : List Text)

open Machine in
def Call.exec : Call → Machine → Except Stop Machine
  | define name argv, m => m.opDefineOrPushdef name argv false
  | pushdef name argv, m => m.opDefineOrPushdef name argv true
  | popdef argv, m => eachOpcArgv opcPopdef argv m
  | undefine argv, m => eachOpcArgv opcUndefine argv m
  | defn argv, m => eachOpcArgv opcDefn argv.reverse m
  | ifdef name argv, m => m.opIfdef name argv
  | traceon argv, m =>
    if argv.length = 0 then .ok { m with g_fTrace := true }
    else eachOpcArgv (fun m => m.opcTraceonoff true) argv m
  | traceoff argv, m =>
    eachOpcArgv (fun m => m.opcTraceonoff false) argv { m with g_fTrace := false }

def run : List Call → Machine → Except Stop Machine
  | [], m => .ok m
  | call :: calls, m => do
    let m ← call.exec m
    run calls m

/-! ### The predefined macros -/

def initHash (h : Heap) : Heap :=
  { h with mphashpmac := fun _ => none, allocated := 0, freed := [] }

def ptsz (s : String) : Text := s.toList.map tch

/-- `mptchptch` -/
def mptchptch : List Text :=
  ["define", "undefine", "defn", "pushdef", "popdef", "ifdef", "shift", "divert", "divnum", "dnl",
    "ifelse", "incr", "decr", "eval", "len", "index", "substr", "translit", "include", "sinclude",
    "errprint", "dumpdef", "traceon", "traceoff", "patsubst"].map ptsz

/-- The loop of `InitPredefs` from the operator `ch` on. -/
def initPredefs : List Text → TCH → Heap → Except Stop Heap
  | [], _, h => .ok h
  | sym :: syms, ch, h => do
    let (pmac, h) ← h.pmacGetPtok sym
    let h ← h.pushdefPmacPtok pmac [tchMagic, ch]
    initPredefs syms (ch + 1) h

end SdkTools.M4.MacroTable
