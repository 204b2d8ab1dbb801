import SdkTools.Lib.SearchTree
import SdkTools.Kd.Transport
import Mathlib.Order.Fin.Basic

/-!
# The keyed trees of windiff

`tree.c`: a map from keys to blocks of storage, as an unbalanced binary tree, and the count
trees on top of it. A `TREEITEM` is the place of its item in the tree. A copy that does not
fit its block has no result.
-/

namespace SdkTools.Windiff

open Kd (Byte bytesOf valueOf)

set_option autoImplicit false

abbrev TREEKEY := Fin (2 ^ 32)
abbrev UINT := BitVec 32

inductive Target where
  | win32
  | win64

def Target.sizeofLONG_PTR : Target → Nat
  | .win32 => 4
  | .win64 => 8

/-! ## Blocks -/

/-- A block of the heap; `none` is `NULL`. -/
abbrev Block := Option (List Byte)

def sizeOf (block : Block) : Nat := (block.getD []).length

/-- The length is passed as an `int`, and the block is zeroed. -/
def gmem_get (len : UINT) : Block :=
  if len.toInt < 1 then none else some (List.replicate len.toNat 0)

def memcpy (block : Block) (offset : Nat) (bytes : List Byte) : Option Block :=
  if offset + bytes.length ≤ sizeOf block then
    some (block.map fun b => b.take offset ++ bytes ++ b.drop (offset + bytes.length))
  else none

/-- The arguments `value` and `length`: the bytes at `value`, which may be `NULL`. -/
structure Value where
  value : Option (List Byte)
  length : UINT
  length_eq : ∀ bytes ∈ value, bytes.length = length.toNat

/-- The copy of the value, if there is a pointer. -/
def copyValue (block : Block) (offset : Nat) (v : Value) : Option Block :=
  match v.value with
  | some bytes => memcpy block offset bytes
  | none => some block

/-! ## Trees -/

/-- `struct treeitem` without the links. -/
structure Treeitem where
  length : UINT
  data : Block

abbrev TREE := SearchTree TREEKEY Treeitem

def tree_newitem (v : Value) : Option Treeitem := do
  let data ← copyValue (gmem_get v.length) 0 v
  some { length := v.length, data }

/-- The loop of `tree_getitem`; `item` is where it stands. -/
def getitemLoop (key : TREEKEY) : TREE → (item : Place) → (prev : Option Place) → Option Place
  | .nil, _, prev => prev
  | .node k _ left right, item, _ =>
    if k = key then some item
    else if key < k then getitemLoop key left (item ++ [.left]) (some item)
    else getitemLoop key right (item ++ [.right]) (some item)

def tree_getitem (tree : TREE) (key : TREEKEY) : Option Place := getitemLoop key tree [] none

/-- The tree, and the item whose data is returned. -/
def tree_addafter (tree : TREE) (place : Option Place) (key : TREEKEY) (v : Value) :
    Option (TREE × Place) := do
  let child ← tree_newitem v
  match place with
  | none => some (.leaf key child, [])
  | some item => some (tree.attach key child item, item ++ [tree.turnAt key item])

def tree_update (tree : TREE) (key : TREEKEY) (v : Value) : Option (TREE × Place) :=
  match tree_getitem tree key with
  | none => do
    let first ← tree_newitem v
    some (.leaf key first, [])
  | some place =>
    match tree.get? place with
    | none => none
    | some (k, item) =>
      if k = key then do
        let block := if v.length ≠ item.length then gmem_get v.length else item.data
        let data ← copyValue block 0 v
        some (tree.set { item with data } place, place)
      else tree_addafter tree (some place) key v

/-- The data of the item with the key. -/
def tree_find (tree : TREE) (key : TREEKEY) : Block := do
  let place ← tree_getitem tree key
  let (k, item) ← tree.get? place
  if k = key then item.data else none

/-- The data of the key, and the place handed out. -/
def tree_search (tree : TREE) (key : TREEKEY) : Block × Option Place :=
  match tree_getitem tree key with
  | none => (none, none)
  | some place =>
    match tree.get? place with
    | none => (none, none)
    | some (k, item) => if k = key then (item.data, none) else (none, some place)

/-- The use of `tree_search` and `tree_addafter`: a key that is not found is inserted. -/
def searchAndAdd (tree : TREE) (key : TREEKEY) (v : Value) : Option TREE :=
  match tree_search tree key with
  | (some _, _) => some tree
  | (none, place) => (tree_addafter tree place key v).map Prod.fst

/-! ## Count trees -/

section Count
variable (target : Target)

/-- A write to the data of an item. -/
def writeData (tree : TREE) (place : Place) (write : Block → Option Block) : Option TREE := do
  let (_, item) ← tree.get? place
  let data ← write item.data
  some (tree.set { item with data } place)

/-- The counter at the start of a block. -/
def counterOf (block : Block) : Nat := valueOf ((block.getD []).take target.sizeofLONG_PTR)

/-- The block that `tree_addafter` gets: the counter and room for the value. -/
def countedRoom (v : Value) : Value where
  value := none
  length := v.length + BitVec.ofNat 32 target.sizeofLONG_PTR
  length_eq := fun _ h => nomatch h

def ctree_update (tree : TREE) (key : TREEKEY) (v : Value) : Option TREE :=
  match tree_search tree key with
  | (none, place) => do
    let (tree, item) ← tree_addafter tree place key (countedRoom target v)
    let tree ← writeData tree item fun data =>
      memcpy data 0 (bytesOf target.sizeofLONG_PTR 1)
    writeData tree item fun data => copyValue data target.sizeofLONG_PTR v
  | (some counted, _) => do
    let item ← tree_getitem tree key
    writeData tree item fun data =>
      memcpy data 0 (bytesOf target.sizeofLONG_PTR (counterOf target (some counted) + 1))

/-- The counter as a `long`. -/
def ctree_getcount (tree : TREE) (key : TREEKEY) : Int :=
  match tree_find tree key with
  | none => 0
  | some counted => (BitVec.ofNat 32 (counterOf target (some counted))).toInt

def ctree_find (tree : TREE) (key : TREEKEY) : Option (List Byte) :=
  (tree_find tree key).map (List.drop target.sizeofLONG_PTR)

end Count

/-! ## Runs -/

inductive Op where
  | update (key : TREEKEY) (v : Value)
  | searchAndAdd (key : TREEKEY) (v : Value)
  | count (key : TREEKEY) (v : Value)

def step (target : Target) (tree : TREE) : Op → Option TREE
  | .update key v => (tree_update tree key v).map Prod.fst
  | .searchAndAdd key v => searchAndAdd tree key v
  | .count key v => ctree_update target tree key v

def run (target : Target) : TREE → List Op → Option TREE
  | tree, [] => some tree
  | tree, op :: ops => do
    let tree ← step target tree op
    run target tree ops

end SdkTools.Windiff
