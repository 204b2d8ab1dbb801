import SdkTools.Lib.LinkedTree

/-!
# Splay links

`pRtlSplay`, `pRtlSubtreePredecessor`, `SwapSplayLinks` and `pRtlDelete` of `splay.cpp` on a
heap of nodes. The left side is `false`.
-/

namespace SdkTools.MemoryCache

open Lib

set_option autoImplicit false

variable {α : Type} [DecidableEq α]

section

variable (h : Links α)

def RtlIsRoot (x : α) : Bool := h.parent x = x

def RtlIsLeftChild (x : α) : Bool := h.child false (h.parent x) = some x

def RtlIsRightChild (x : α) : Bool := h.child true (h.parent x) = some x

def setParent (x p : α) : Links α := { h with parent := Function.update h.parent x p }

def setChild (d : Bool) (x : α) (q : Option α) : Links α :=
  { h with child := fun e y => if e = d ∧ y = x then q else h.child e y }

/-- `x->LeftChild = q; if (x->LeftChild != NULL) {x->LeftChild->Parent = x;}` -/
def connect (d : Bool) (x : α) (q : Option α) : Links α :=
  match q with
  | none => setChild h d x none
  | some y => setParent (setChild h d x (some y)) y x

/-- `*(ParentsChildPointerAddress(x)) = q` -/
def setParentsChild (x : α) (q : Option α) : Links α :=
  setChild h (!RtlIsLeftChild h x) (h.parent x) q

/-- Connect L & Great GrandParent. -/
def connectGreat (G L : α) : Links α :=
  if RtlIsRoot h G then setParent h L L
  else setParentsChild (setParent h L (h.parent G)) G (some L)

/-- One round of the loop of `pRtlSplay`. -/
def splayStep (L : α) : Links α :=
  let P := h.parent L
  let G := h.parent P
  if RtlIsLeftChild h L then
    if RtlIsRoot h P then
      let h := connect h false P (h.child true L)
      let h := connect h true L (some P)
      setParent h L L
    else if RtlIsLeftChild h P then
      let h := connect h false P (h.child true L)
      let h := connect h false G (h.child true P)
      let h := connectGreat h G L
      let h := connect h true L (some P)
      connect h true P (some G)
    else
      let h := connect h true G (h.child false L)
      let h := connect h false P (h.child true L)
      let h := connectGreat h G L
      let h := connect h false L (some G)
      connect h true L (some P)
  else
    if RtlIsRoot h P then
      let h := connect h true P (h.child false L)
      let h := connect h false L (some P)
      setParent h L L
    else if RtlIsRightChild h P then
      let h := connect h true G (h.child false P)
      let h := connect h true P (h.child false L)
      let h := connectGreat h G L
      let h := connect h false L (some P)
      connect h false P (some G)
    else
      let h := connect h true P (h.child false L)
      let h := connect h false G (h.child true L)
      let h := connectGreat h G L
      let h := connect h false L (some P)
      connect h true L (some G)

end

/-- The heap and the root; `none` when the fuel does not suffice. -/
def pRtlSplay : Nat → Links α → α → Option (Links α × α)
  | 0, _, _ => none
  | fuel + 1, h, L =>
    if RtlIsRoot h L then some (h, L) else pRtlSplay fuel (splayStep h L) L

/-- The right most node of a subtree. -/
def rightMost (h : Links α) : Nat → α → Option α
  | 0, _ => none
  | fuel + 1, Ptr =>
    match h.child true Ptr with
    | none => some Ptr
    | some Ptr => rightMost h fuel Ptr

/-- The predecessor, which is NULL without a left subtree. -/
def pRtlSubtreePredecessor (h : Links α) (fuel : Nat) (x : α) : Option (Option α) :=
  match h.child false x with
  | none => some none
  | some Ptr => (rightMost h fuel Ptr).map some

section

variable (h : Links α)

def swapChildren (d : Bool) (x y : α) : Links α :=
  setChild (setChild h d x (h.child d y)) d y (h.child d x)

def fixParent (d : Bool) (x : α) : Links α :=
  match h.child d x with
  | none => h
  | some y => setParent h y x

/-- The initial steps when `Link1` is not a child of `Link2`. -/
def swapSlots (Link1 Link2 : α) : Links α :=
  if !RtlIsRoot h Link2 then
    let d := !RtlIsLeftChild h Link1
    let e := !RtlIsLeftChild h Link2
    let Parent1 := h.parent Link1
    let Parent2 := h.parent Link2
    let Child1 := h.child d Parent1
    let h := setChild (setChild h d Parent1 (h.child e Parent2)) e Parent2 Child1
    setParent (setParent h Link1 Parent2) Link2 Parent1
  else
    let h := setParentsChild h Link1 (some Link2)
    let h := setParent h Link2 (h.parent Link1)
    setParent h Link1 Link1

/-- The initial steps when it is one. -/
def takePlace (Link1 Link2 : α) : Links α :=
  if !RtlIsRoot h Link2 then
    let h := setParentsChild h Link2 (some Link1)
    setParent h Link1 (h.parent Link2)
  else setParent h Link1 Link1

/-- The swap, when `Link2` may be the root and `Link1` may be its child. -/
def swapPlaces (Link1 Link2 : α) : Links α :=
  if h.parent Link1 ≠ Link2 then
    let h := swapSlots h Link1 Link2
    swapChildren (swapChildren h false Link1 Link2) true Link1 Link2
  else
    let h := takePlace h Link1 Link2
    let h := swapChildren (swapChildren h false Link1 Link2) true Link1 Link2
    if h.child false Link1 = some Link1 then setChild h false Link1 (some Link2)
    else setChild h true Link1 (some Link2)

def SwapSplayLinks (Link1 Link2 : α) : Links α :=
  let (Link1, Link2) :=
    if RtlIsRoot h Link1 || h.parent Link2 = Link1 then (Link2, Link1) else (Link1, Link2)
  let h := swapPlaces h Link1 Link2
  fixParent (fixParent (fixParent (fixParent h false Link1) true Link1) false Link2) true Link2

end

/-- The part of `pRtlDelete` for a node with at most one child. -/
def deleteLinks (fuel : Nat) (h : Links α) (x : α) : Option (Links α × Option α) :=
  if h.child false x = none ∧ h.child true x = none then
    if RtlIsRoot h x then some (h, none)
    else
      let Parent := h.parent x
      (pRtlSplay fuel (setParentsChild h x none) Parent).map fun (h, root) => (h, some root)
  else
    match (if h.child false x ≠ none then h.child false x else h.child true x) with
    | none => none
    | some Child =>
      if RtlIsRoot h x then some (setParent h Child Child, some Child)
      else
        let h := setParentsChild h x (some Child)
        let h := setParent h Child (h.parent x)
        (pRtlSplay fuel h (h.parent Child)).map fun (h, root) => (h, some root)

/-- The heap and the root, if there is one left. -/
def pRtlDelete (fuel : Nat) (h : Links α) (x : α) : Option (Links α × Option α) :=
  if h.child false x ≠ none ∧ h.child true x ≠ none then
    match pRtlSubtreePredecessor h fuel x with
    | some (some Predecessor) => deleteLinks fuel (SwapSplayLinks h Predecessor x) x
    | _ => none
  else deleteLinks fuel h x

end SdkTools.MemoryCache
