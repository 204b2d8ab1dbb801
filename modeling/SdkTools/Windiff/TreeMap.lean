import SdkTools.Windiff.Tree
import SdkTools.Kd.RoundTrip
import SdkTools.Types

/-!
# Keyed trees as maps

What the trees of `tree.c` are for: a map from keys to stored bytes, or to a count and the
bytes first stored. A run refines the map as long as no value is replaced by one of another
length, since `tree_update` does not record the length of the new block.
-/

namespace SdkTools.Windiff

open Kd (Byte bytesOf valueOf)

set_option autoImplicit false

/-! ## The map -/

/-- What is stored under a key: a value, or a count with the value first stored. -/
inductive Stored where
  | value (bytes : List Byte)
  | counted (count : Nat) (first : List Byte)

/-- The bytes of a value; storage that is not initialised is zeroed. -/
def Value.bytes (v : Value) : List Byte := v.value.getD (List.replicate v.length.toNat 0)

/-- What `tree_update` stores over a value: `NULL` leaves the bytes as they are when their
number does not change. -/
def Value.over (v : Value) : Option Stored → List Byte
  | some (.value old) => if v.length.toNat = old.length then v.value.getD old else v.bytes
  | _ => v.bytes

/-- What is stored under the keys after one more call. -/
def store (m : TREEKEY → Option Stored) : Op → TREEKEY → Option Stored
  | .update key v => Function.update m key (some (.value (v.over (m key))))
  | .searchAndAdd key v =>
    match m key with
    | none => Function.update m key (some (.value v.bytes))
    | some _ => m
  | .count key v =>
    match m key with
    | some (.counted n first) => Function.update m key (some (.counted (n + 1) first))
    | _ => Function.update m key (some (.counted 1 v.bytes))

/-- What is stored after a sequence of calls on an empty tree. -/
def stored (ops : List Op) : TREEKEY → Option Stored := ops.foldl store fun _ => none

/-- The calls under which a tree is a map: lengths fit the `int` of `gmem_get`; a value is
not replaced by one of another length; no empty value is searched for; a key is used for
values or for counts, and is not counted to `2 ^ 31`. -/
def Fits (target : Target) (m : TREEKEY → Option Stored) : Op → Prop
  | .update key v =>
    v.length.toNat < 2 ^ 31 ∧
      match m key with
      | none => True
      | some (.value old) => v.length.toNat = old.length
      | some (.counted ..) => False
  | .searchAndAdd key v =>
    v.length.toNat < 2 ^ 31 ∧
      match m key with
      | none => True
      | some (.value old) => old ≠ []
      | some (.counted ..) => False
  | .count key v =>
    target.sizeofLONG_PTR + v.length.toNat < 2 ^ 31 ∧
      match m key with
      | none => True
      | some (.value _) => False
      | some (.counted n _) => n + 1 < 2 ^ 31

/-! ## The tree of a map -/

section Image
variable (target : Target)

/-- The block of what is stored. -/
def Stored.image : Stored → List Byte
  | .value bytes => bytes
  | .counted n first => bytesOf target.sizeofLONG_PTR n ++ first

/-- The item with these bytes. -/
def itemOf (bytes : List Byte) : Treeitem where
  length := BitVec.ofNat 32 bytes.length
  data := if bytes = [] then none else some bytes

/-- The tree holds the map. -/
structure Holds (tree : TREE) (m : TREEKEY → Option Stored) : Prop where
  ordered : tree.Ordered
  find : ∀ key, tree.find key = (m key).map fun s => itemOf (s.image target)
  short : ∀ key s, m key = some s → (s.image target).length < 2 ^ 31
  count : ∀ key n first, m key = some (.counted n first) → n < 2 ^ 31

end Image

variable {target : Target} {tree : TREE} {m : TREEKEY → Option Stored} {key : TREEKEY} {v : Value}

theorem getitemLoop_eq (tree : TREE) (item : Place) (prev : Option Place) :
    getitemLoop key tree item prev =
      match tree.trail key with
      | none => prev
      | some place => some (item ++ place) := by
  induction tree generalizing item prev with
  | nil => rfl
  | node k e left right ihl ihr =>
    simp only [getitemLoop, SearchTree.trail]
    split_ifs with hk hlt
    · simp
    · rw [ihl]
      cases left.trail key <;> simp
    · rw [ihr]
      cases right.trail key <;> simp

theorem tree_getitem_eq (tree : TREE) (key : TREEKEY) : tree_getitem tree key = tree.trail key := by
  rw [tree_getitem, getitemLoop_eq]
  cases tree.trail key <;> rfl

/-- Where `tree_getitem` stops. -/
theorem getitem_cases (tree : TREE) (key : TREEKEY) :
    (tree = .nil ∧ tree_getitem tree key = none) ∨
    (∃ place item, tree_getitem tree key = some place ∧ tree.Found key item place) ∨
    ∃ place, tree_getitem tree key = some place ∧ tree.Missing key place := by
  rw [tree_getitem_eq]
  cases h : tree.trail key with
  | none => exact .inl ⟨SearchTree.trail_eq_none.mp h, rfl⟩
  | some place =>
    rcases SearchTree.trail_cases h with ⟨item, hfound⟩ | hmissing
    · exact .inr (.inl ⟨place, item, rfl, hfound⟩)
    · exact .inr (.inr ⟨place, rfl, hmissing⟩)

/-! ## Blocks -/

theorem gmem_get_of_lt {len : UINT} (h : len.toNat < 2 ^ 31) :
    gmem_get len = (itemOf (List.replicate len.toNat 0)).data := by
  have hint : len.toInt = len.toNat := BitVec.toInt_eq_toNat_of_lt (by omega)
  simp only [gmem_get, itemOf, hint, List.replicate_eq_nil_iff]
  split_ifs <;> first | rfl | omega

theorem sizeOf_itemOf (bytes : List Byte) : sizeOf (itemOf bytes).data = bytes.length := by
  unfold itemOf sizeOf
  split_ifs with h
  · rw [h]; rfl
  · rfl

theorem itemOf_data {bytes : List Byte} (h : bytes ≠ []) : (itemOf bytes).data = some bytes :=
  if_neg h

theorem memcpy_itemOf {old bytes : List Byte} {offset : Nat}
    (h : offset + bytes.length ≤ old.length) :
    memcpy (itemOf old).data offset bytes =
      some (itemOf (old.take offset ++ bytes ++ old.drop (offset + bytes.length))).data := by
  rw [memcpy, sizeOf_itemOf, if_pos h]
  by_cases ho : old = []
  · have hb : bytes = [] := List.length_eq_zero_iff.mp (by rw [ho, List.length_nil] at h; omega)
    simp [ho, hb, itemOf]
  · have hpos := List.length_pos_iff.mpr ho
    rw [itemOf_data ho, itemOf_data, Option.map_some]
    intro hnil
    have hlen := congrArg List.length hnil
    simp only [List.length_append, List.length_take, List.length_drop, List.length_nil] at hlen
    omega

theorem Value.length_bytes (v : Value) : v.bytes.length = v.length.toNat := by
  unfold Value.bytes
  cases h : v.value with
  | none => exact List.length_replicate
  | some bytes => exact v.length_eq bytes h

/-- Storage over bytes of the same number. -/
theorem Value.length_getD {old : List Byte} (h : v.length.toNat = old.length) :
    (v.value.getD old).length = old.length := by
  cases hv : v.value with
  | none => rfl
  | some bytes => exact (v.length_eq bytes hv).trans h

/-- The copy of a value to the end of a block. -/
theorem copyValue_tail (head : List Byte) {old : List Byte} (h : v.length.toNat = old.length) :
    copyValue (itemOf (head ++ old)).data head.length v =
      some (itemOf (head ++ v.value.getD old)).data := by
  unfold copyValue
  cases hv : v.value with
  | none => rfl
  | some bytes =>
    have hlen : bytes.length = old.length := (v.length_eq bytes hv).trans h
    change memcpy _ _ bytes = _
    rw [memcpy_itemOf (by rw [List.length_append]; omega), List.take_left', hlen,
      ← List.length_append, List.drop_length, List.append_nil, Option.getD_some]
    rfl

theorem tree_newitem_eq (h : v.length.toNat < 2 ^ 31) : tree_newitem v = some (itemOf v.bytes) := by
  have hcopy := copyValue_tail (v := v) [] (List.length_replicate (a := (0 : Byte))).symm
  rw [tree_newitem, gmem_get_of_lt h]
  simp only [List.nil_append, List.length_nil] at hcopy
  simp only [hcopy, Option.bind_eq_bind, Option.bind_some, Option.some.injEq]
  unfold itemOf
  rw [← Value.bytes, v.length_bytes, BitVec.ofNat_toNat, BitVec.setWidth_eq]

/-! ## Searches and insertions -/

/-- The place at which a missing key is inserted. -/
def InsertAt (key : TREEKEY) (tree : TREE) : Option Place → Prop
  | none => tree = .nil
  | some place => tree.Missing key place

theorem InsertAt.find {place : Option Place} (h : InsertAt key tree place) :
    tree.find key = none := by
  cases place with
  | none => obtain rfl : tree = .nil := h; rfl
  | some place => exact SearchTree.Missing.find h

/-- A key is missing, and inserted where the search ends, or it is found. -/
theorem search_cases (tree : TREE) (key : TREEKEY) :
    (∃ place, InsertAt key tree place ∧ tree_search tree key = (none, place) ∧
      (∀ v, tree_update tree key v = tree_addafter tree place key v) ∧
      tree_find tree key = none) ∨
    ∃ place item, tree.Found key item place ∧ tree_getitem tree key = some place ∧
      tree_search tree key = (item.data, none) ∧ tree_find tree key = item.data := by
  rcases getitem_cases tree key with ⟨hnil, hget⟩ | ⟨place, item, hget, hfound⟩ |
      ⟨place, hget, hmissing⟩
  · refine .inl ⟨none, hnil, ?_, fun v => ?_, ?_⟩
    · rw [tree_search, hget]
    · rw [tree_update, hget, tree_addafter]
    · rw [tree_find, hget]; rfl
  · refine .inr ⟨place, item, hfound, hget, ?_, ?_⟩
    · simp [tree_search, hget, hfound.get?]
    · simp [tree_find, hget, hfound.get?]
  · obtain ⟨k, old, hat, hne⟩ := hmissing.get?
    refine .inl ⟨some place, hmissing, ?_, fun v => ?_, ?_⟩
    · simp [tree_search, hget, hat, hne]
    · simp [tree_update, hget, hat, hne]
    · simp [tree_find, hget, hat, hne]

/-- The tree has the item under the key, and is otherwise as it was. -/
structure Put (key : TREEKEY) (item : Treeitem) (old tree : TREE) : Prop where
  ordered : tree.Ordered
  find : ∀ other, tree.find other = if other = key then some item else old.find other

theorem Put.set {place : Place} {item new : Treeitem} (h : tree.Found key item place)
    (hord : tree.Ordered) : Put key new tree (tree.set new place) :=
  ⟨SearchTree.ordered_set hord, h.find_set new⟩

theorem Put.again {old : TREE} {place : Place} {item item' new : Treeitem}
    (hput : Put key item old tree) (h : tree.Found key item' place) :
    Put key new old (tree.set new place) := by
  refine ⟨SearchTree.ordered_set hput.ordered, fun other => ?_⟩
  rw [h.find_set, hput.find]
  split_ifs <;> rfl

theorem addafter_put {place : Option Place} (h : InsertAt key tree place) (hord : tree.Ordered)
    (hlen : v.length.toNat < 2 ^ 31) :
    ∃ new item, tree_addafter tree place key v = some (new, item) ∧
      new.Found key (itemOf v.bytes) item ∧ Put key (itemOf v.bytes) tree new := by
  rw [tree_addafter, tree_newitem_eq hlen]
  cases place with
  | none =>
    obtain rfl : tree = .nil := h
    refine ⟨_, _, rfl, .here, ?_, SearchTree.Missing.find_leaf _⟩
    exact List.pairwise_singleton _ _
  | some place =>
    refine ⟨_, _, rfl, SearchTree.Missing.found_attach h _, ?_, ?_⟩
    · exact SearchTree.Missing.ordered_attach h _ hord
    · exact SearchTree.Missing.find_attach h _

theorem Holds.put {new : TREE} {s : Stored} (h : Holds target tree m)
    (hput : Put key (itemOf (s.image target)) tree new)
    (hshort : (s.image target).length < 2 ^ 31)
    (hcount : ∀ n first, s = .counted n first → n < 2 ^ 31) :
    Holds target new (Function.update m key (some s)) := by
  refine ⟨hput.ordered, fun other => ?_, fun other s' => ?_, fun other n first => ?_⟩
  · rw [hput.find, Function.update_apply]
    split_ifs with ho
    · rfl
    · exact h.find other
  · rw [Function.update_apply]
    split_ifs with ho
    · rintro ⟨⟩
      exact hshort
    · exact h.short other s'
  · rw [Function.update_apply]
    split_ifs with ho
    · intro heq
      exact hcount n first (Option.some.inj heq)
    · exact h.count other n first

theorem Holds.none_of_insertAt {place : Option Place} (h : Holds target tree m)
    (hins : InsertAt key tree place) : m key = none := by
  have hfind := (h.find key).symm.trans hins.find
  exact Option.map_eq_none_iff.mp hfind

theorem Holds.some_of_found {place : Place} {item : Treeitem} (h : Holds target tree m)
    (hfound : tree.Found key item place) :
    ∃ s, m key = some s ∧ item = itemOf (s.image target) := by
  have hfind := (h.find key).symm.trans hfound.find
  obtain ⟨s, hs, heq⟩ := Option.map_eq_some_iff.mp hfind
  exact ⟨s, hs, heq.symm⟩

theorem itemOf_length {bytes : List Byte} (h : bytes.length < 2 ^ 31) :
    (itemOf bytes).length.toNat = bytes.length :=
  Nat.mod_eq_of_lt (by omega)

/-- The item with other bytes of the same number. -/
theorem itemOf_with {old new : List Byte} (h : new.length = old.length) :
    ({ itemOf old with data := (itemOf new).data } : Treeitem) = itemOf new := by
  simp only [itemOf, h]

/-! ## The calls -/

theorem tree_update_holds (h : Holds target tree m) (hfits : Fits target m (.update key v)) :
    ∃ new, step target tree (.update key v) = some new ∧
      Holds target new (store m (.update key v)) := by
  obtain ⟨hlen, hkey⟩ := hfits
  rcases search_cases tree key with ⟨place, hins, _, hupd, _⟩ | ⟨place, item, hfound, hget, _⟩
  · obtain ⟨new, item, hadd, _, hput⟩ := addafter_put hins h.ordered hlen
    refine ⟨new, by simp [step, hupd, hadd], ?_⟩
    simp only [store, h.none_of_insertAt hins, Value.over]
    exact h.put (s := .value v.bytes) hput (v.length_bytes ▸ hlen) (by simp)
  · obtain ⟨s, hs, rfl⟩ := h.some_of_found hfound
    rw [hs] at hkey
    cases s with
    | counted n first => exact hkey.elim
    | value old =>
      -- the recorded length is that of the block, so that the block is kept
      have hlength : v.length = (itemOf old).length := by
        apply BitVec.eq_of_toNat_eq
        rw [itemOf_length (hkey ▸ hlen), hkey]
      have hcopy := copyValue_tail (v := v) [] hkey
      simp only [List.nil_append, List.length_nil] at hcopy
      refine ⟨tree.set (itemOf (v.value.getD old)) place, ?_, ?_⟩
      · simp only [Stored.image] at hfound
        simp [step, tree_update, hget, hfound.get?, hlength, hcopy,
          itemOf_with (Value.length_getD hkey)]
      · simp only [store, hs, Value.over, if_pos hkey]
        refine h.put (s := .value (v.value.getD old)) (Put.set hfound h.ordered) ?_ (by simp)
        exact (Value.length_getD hkey).trans_lt (hkey ▸ hlen)

theorem searchAndAdd_holds (h : Holds target tree m)
    (hfits : Fits target m (.searchAndAdd key v)) :
    ∃ new, step target tree (.searchAndAdd key v) = some new ∧
      Holds target new (store m (.searchAndAdd key v)) := by
  obtain ⟨hlen, hkey⟩ := hfits
  rcases search_cases tree key with ⟨place, hins, hsearch, _⟩ | ⟨place, item, hfound, _, hsearch, _⟩
  · obtain ⟨new, item, hadd, _, hput⟩ := addafter_put hins h.ordered hlen
    refine ⟨new, by simp [step, searchAndAdd, hsearch, hadd], ?_⟩
    simp only [store, h.none_of_insertAt hins]
    exact h.put (s := .value v.bytes) hput (v.length_bytes ▸ hlen) (by simp)
  · obtain ⟨s, hs, rfl⟩ := h.some_of_found hfound
    rw [hs] at hkey
    cases s with
    | counted n first => exact hkey.elim
    | value old =>
      refine ⟨tree, ?_, ?_⟩
      · rw [Stored.image, itemOf_data hkey] at hsearch
        simp only [step, searchAndAdd, hsearch]
      · simpa only [store, hs] using h

theorem writeData_found (write : Block → Option Block) {place : Place} {old new : List Byte}
    (hfound : tree.Found key (itemOf old) place)
    (hwrite : write (itemOf old).data = some (itemOf new).data) (hlen : new.length = old.length) :
    writeData tree place write = some (tree.set (itemOf new) place) := by
  simp only [writeData, hfound.get?, Option.bind_eq_bind, Option.bind_some, hwrite,
    itemOf_with hlen]

/-- Another counter at the start of a block. -/
theorem memcpy_counter {head old rest : List Byte} (h : head.length = old.length) :
    memcpy (itemOf (old ++ rest)).data 0 head = some (itemOf (head ++ rest)).data := by
  rw [memcpy_itemOf (by rw [List.length_append]; omega), Nat.zero_add, h, List.drop_left,
    List.take_zero, List.nil_append]

theorem Target.sizeofLONG_PTR_pos (target : Target) : 0 < target.sizeofLONG_PTR := by
  cases target <;> decide

theorem valueOf_counter {n : Nat} (h : n < 2 ^ 31) :
    valueOf (bytesOf target.sizeofLONG_PTR n) = n := by
  rw [Kd.valueOf_bytesOf]
  apply Nat.mod_eq_of_lt
  cases target <;> simp only [Target.sizeofLONG_PTR] <;> omega

theorem image_counted_ne_nil (n : Nat) (first : List Byte) :
    (Stored.counted n first).image target ≠ [] := by
  intro hnil
  have hlen := congrArg List.length hnil
  have hpos := target.sizeofLONG_PTR_pos
  simp only [Stored.image, List.length_append, Kd.length_bytesOf, List.length_nil] at hlen
  omega

theorem counterOf_image {n : Nat} (h : n < 2 ^ 31) (first : List Byte) :
    counterOf target (some ((Stored.counted n first).image target)) = n := by
  rw [counterOf, Option.getD_some, Stored.image, List.take_left' (Kd.length_bytesOf _ _),
    valueOf_counter h]

theorem countedRoom_bytes (v : Value)
    (hlen : target.sizeofLONG_PTR + v.length.toNat < 2 ^ 31) :
    (countedRoom target v).length.toNat = target.sizeofLONG_PTR + v.length.toNat ∧
      (countedRoom target v).bytes =
        List.replicate target.sizeofLONG_PTR 0 ++ List.replicate v.length.toNat 0 := by
  have hroom : (countedRoom target v).length.toNat = target.sizeofLONG_PTR + v.length.toNat := by
    simp only [countedRoom, BitVec.toNat_add, BitVec.toNat_ofNat]
    omega
  refine ⟨hroom, ?_⟩
  rw [List.replicate_append_replicate, ← hroom]
  rfl

/-- The first call for a key: room for counter and value, then the counter, then the value. -/
theorem ctree_update_missing {place : Option Place} (hins : InsertAt key tree place)
    (hsearch : tree_search tree key = (none, place)) (hord : tree.Ordered)
    (hlen : target.sizeofLONG_PTR + v.length.toNat < 2 ^ 31) :
    ∃ new, ctree_update target tree key v = some new ∧
      Put key (itemOf ((Stored.counted 1 v.bytes).image target)) tree new := by
  obtain ⟨hroom, hzeros⟩ := countedRoom_bytes v hlen
  obtain ⟨new, item, hadd, hat, hput⟩ := addafter_put hins hord (hroom ▸ hlen)
  rw [hzeros] at hat hput
  have hone := Kd.length_bytesOf target.sizeofLONG_PTR 1
  let counted := itemOf (bytesOf target.sizeofLONG_PTR 1 ++ List.replicate v.length.toNat 0)
  have hzero : (List.replicate v.length.toNat (0 : Byte)).length = v.length.toNat :=
    List.length_replicate
  have hcounter := @memcpy_counter _ _ (List.replicate v.length.toNat (0 : Byte))
    (hone.trans (List.length_replicate (a := (0 : Byte))).symm)
  have hfirst := writeData_found (memcpy · 0 (bytesOf target.sizeofLONG_PTR 1)) hat hcounter
    (by simp [hone])
  have hcopy := copyValue_tail (v := v) (bytesOf target.sizeofLONG_PTR 1) hzero.symm
  rw [hone] at hcopy
  have hsecond := writeData_found (copyValue · target.sizeofLONG_PTR v) (hat.set counted) hcopy
    (by rw [List.length_append, List.length_append, hzero]; exact congrArg _ v.length_bytes)
  refine ⟨_, ?_, (hput.again hat).again (hat.set counted)⟩
  simp only [ctree_update, hsearch, hadd, Option.bind_eq_bind, Option.bind_some, hfirst]
  exact hsecond

theorem ctree_update_found {place : Place} {n : Nat} {first : List Byte}
    (hfound : tree.Found key (itemOf ((Stored.counted n first).image target)) place)
    (hget : tree_getitem tree key = some place) (hord : tree.Ordered) (hn : n < 2 ^ 31)
    (hsearch : tree_search tree key =
      ((itemOf ((Stored.counted n first).image target)).data, none)) :
    ∃ new, ctree_update target tree key v = some new ∧
      Put key (itemOf ((Stored.counted (n + 1) first).image target)) tree new := by
  rw [itemOf_data (image_counted_ne_nil n first)] at hsearch
  have hlength (k : Nat) : (bytesOf target.sizeofLONG_PTR k).length = target.sizeofLONG_PTR :=
    Kd.length_bytesOf _ k
  have hcounter := @memcpy_counter _ _ first ((hlength (n + 1)).trans (hlength n).symm)
  have hwrite := writeData_found (memcpy · 0 (bytesOf target.sizeofLONG_PTR (n + 1)))
    hfound hcounter (by simp [Stored.image, hlength])
  refine ⟨_, ?_, Put.set hfound hord⟩
  simp only [ctree_update, hsearch, hget, Option.bind_eq_bind, Option.bind_some,
    counterOf_image hn]
  exact hwrite

theorem ctree_update_holds (h : Holds target tree m) (hfits : Fits target m (.count key v)) :
    ∃ new, step target tree (.count key v) = some new ∧
      Holds target new (store m (.count key v)) := by
  obtain ⟨hlen, hkey⟩ := hfits
  have hlength (k : Nat) : (bytesOf target.sizeofLONG_PTR k).length = target.sizeofLONG_PTR :=
    Kd.length_bytesOf _ k
  rcases search_cases tree key with ⟨place, hins, hsearch, _⟩ |
      ⟨place, item, hfound, hget, hsearch, _⟩
  · obtain ⟨new, hstep, hput⟩ := ctree_update_missing hins hsearch h.ordered hlen
    refine ⟨new, hstep, ?_⟩
    simp only [store, h.none_of_insertAt hins]
    refine h.put hput ?_ ?_
    · simpa [Stored.image, hlength, v.length_bytes] using hlen
    · rintro n first ⟨⟩
      decide
  · obtain ⟨s, hs, rfl⟩ := h.some_of_found hfound
    rw [hs] at hkey
    cases s with
    | value old => exact hkey.elim
    | counted n first =>
      obtain ⟨new, hstep, hput⟩ := ctree_update_found (v := v) hfound hget h.ordered
        (h.count key n first hs) hsearch
      refine ⟨new, hstep, ?_⟩
      simp only [store, hs]
      refine h.put hput ?_ ?_
      · simpa [Stored.image, hlength] using h.short key _ hs
      · rintro n' first' ⟨⟩
        exact hkey

/-! ## Runs -/

theorem step_holds (h : Holds target tree m) {op : Op} (hfits : Fits target m op) :
    ∃ new, step target tree op = some new ∧ Holds target new (store m op) := by
  cases op with
  | update key v => exact tree_update_holds h hfits
  | searchAndAdd key v => exact searchAndAdd_holds h hfits
  | count key v => exact ctree_update_holds h hfits

/-- Every call of the sequence meets the condition when it is made. -/
def AllFit (target : Target) : (TREEKEY → Option Stored) → List Op → Prop
  | _, [] => True
  | m, op :: ops => Fits target m op ∧ AllFit target (store m op) ops

theorem run_holds {ops : List Op} (h : Holds target tree m) (hfit : AllFit target m ops) :
    ∃ new, run target tree ops = some new ∧ Holds target new (ops.foldl store m) := by
  induction ops generalizing tree m with
  | nil => exact ⟨tree, rfl, h⟩
  | cons op ops ih =>
    obtain ⟨next, hstep, hnext⟩ := step_holds h hfit.1
    obtain ⟨new, hrun, hnew⟩ := ih hnext hfit.2
    exact ⟨new, by simp only [run, hstep, Option.bind_eq_bind, Option.bind_some, hrun], hnew⟩

theorem holds_nil (target : Target) : Holds target .nil fun _ => none where
  ordered := List.Pairwise.nil
  find := fun _ => rfl
  short := fun _ _ h => nomatch h
  count := fun _ _ _ h => nomatch h

/-- The calls of `ctree_update` for a key. -/
def isCountOf (key : TREEKEY) : Op → Bool
  | .count k _ => k = key
  | _ => false

def Stored.calls : Option Stored → Nat
  | some (.counted n _) => n
  | _ => 0

theorem calls_store {op : Op} (hfits : Fits target m op) (key : TREEKEY) :
    Stored.calls (store m op key) = Stored.calls (m key) + if isCountOf key op then 1 else 0 := by
  cases op with
  | update k v =>
    rcases eq_or_ne key k with rfl | hk
    · cases hm : m key with
      | none => simp [store, isCountOf, Stored.calls]
      | some s => cases s <;> simp_all [store, isCountOf, Stored.calls, Fits]
    · simp [store, isCountOf, Function.update_of_ne hk]
  | searchAndAdd k v =>
    cases hm : m k with
    | some s => simp [store, isCountOf, hm]
    | none =>
      rcases eq_or_ne key k with rfl | hk
      · simp [store, isCountOf, Stored.calls, hm]
      · simp [store, isCountOf, hm, Function.update_of_ne hk]
  | count k v =>
    rcases eq_or_ne key k with rfl | hk
    · cases hm : m key with
      | none => simp [store, isCountOf, Stored.calls, hm]
      | some s => cases s <;> simp_all [store, isCountOf, Stored.calls, Fits]
    · cases hm : m k with
      | none => simp [store, isCountOf, hm, Function.update_of_ne hk, hk.symm]
      | some s => cases s <;> simp [store, isCountOf, hm, Function.update_of_ne hk, hk.symm]

theorem calls_foldl {ops : List Op} (hfit : AllFit target m ops) (key : TREEKEY) :
    Stored.calls (ops.foldl store m key) = Stored.calls (m key) + ops.countP (isCountOf key) := by
  induction ops generalizing m with
  | nil => rfl
  | cons op ops ih =>
    rw [List.foldl_cons, ih hfit.2, calls_store hfit.1, List.countP_cons]
    omega

/-! ## The tree as a map -/

/-- The tree is the map of the calls, and no recorded length differs from its block. -/
structure IsMap (target : Target) (ops : List Op) (tree : TREE) : Prop where
  ordered : tree.Ordered
  find : ∀ key bytes, stored ops key = some (.value bytes) →
    tree_find tree key = if bytes = [] then none else some bytes
  find_none : ∀ key, stored ops key = none →
    tree_find tree key = none ∧ ctree_find target tree key = none
  getcount : ∀ key, (∀ bytes, stored ops key ≠ some (.value bytes)) →
    ctree_getcount target tree key = ops.countP (isCountOf key)
  first : ∀ key n first, stored ops key = some (.counted n first) →
    ctree_find target tree key = some first
  length : ∀ key item, (key, item) ∈ tree.entries → item.length.toNat = sizeOf item.data

theorem Holds.tree_find_eq (h : Holds target tree m) (key : TREEKEY) :
    tree_find tree key = (m key).bind fun s => (itemOf (s.image target)).data := by
  rcases search_cases tree key with ⟨place, hins, _, _, hfind⟩ | ⟨place, item, hfound, _, _, hfind⟩
  · rw [hfind, h.none_of_insertAt hins]; rfl
  · obtain ⟨s, hs, rfl⟩ := h.some_of_found hfound
    rw [hfind, hs]; rfl

theorem Holds.tree_find_counted (h : Holds target tree m) {n : Nat} {first : List Byte}
    (hkey : m key = some (.counted n first)) :
    tree_find tree key = some ((Stored.counted n first).image target) := by
  rw [h.tree_find_eq, hkey, Option.bind_some, itemOf_data (image_counted_ne_nil n first)]

theorem Holds.getcount (h : Holds target tree m) (key : TREEKEY)
    (hvalue : ∀ bytes, m key ≠ some (.value bytes)) :
    ctree_getcount target tree key = Stored.calls (m key) := by
  cases hm : m key with
  | none =>
    have hfind : tree_find tree key = none := by rw [h.tree_find_eq, hm]; rfl
    simp only [ctree_getcount, hfind, Stored.calls]
    rfl
  | some s =>
    cases s with
    | value bytes => exact absurd hm (hvalue bytes)
    | counted n first =>
      have hn := h.count key n first hm
      have hmod : (BitVec.ofNat 32 n).toNat = n := Nat.mod_eq_of_lt (by omega)
      simp only [ctree_getcount, h.tree_find_counted hm, counterOf_image hn, Stored.calls]
      rw [BitVec.toInt_eq_toNat_of_lt (by omega), hmod]

theorem Holds.length (h : Holds target tree m) {item : Treeitem}
    (hitem : (key, item) ∈ tree.entries) : item.length.toNat = sizeOf item.data := by
  have hfind := (h.find key).symm.trans ((SearchTree.find_eq_some_iff h.ordered).mpr hitem)
  obtain ⟨s, hs, rfl⟩ := Option.map_eq_some_iff.mp hfind
  rw [itemOf_length (h.short key s hs), sizeOf_itemOf]

/-- A replacement by a value of another length leaves the old length on record. -/
theorem recorded_length_ne (h : Holds target tree m) {old : List Byte} {new : TREE}
    (hkey : m key = some (.value old)) (hlen : v.length.toNat < 2 ^ 31)
    (hne : v.length.toNat ≠ old.length) (hstep : step target tree (.update key v) = some new) :
    ∃ item, new.find key = some item ∧ item.length.toNat ≠ sizeOf item.data := by
  have hshort := h.short key _ hkey
  rcases search_cases tree key with ⟨place, hins, _⟩ | ⟨place, item, hfound, hget, _⟩
  · exact absurd (h.none_of_insertAt hins) (by simp [hkey])
  · obtain ⟨s, hs, rfl⟩ := h.some_of_found hfound
    obtain rfl : Stored.value old = s := Option.some.inj (hkey.symm.trans hs)
    have hrecorded : (itemOf old).length.toNat = old.length := itemOf_length hshort
    have hlength : v.length ≠ (itemOf old).length := by
      intro heq
      exact hne (by rw [heq, hrecorded])
    have hcopy := copyValue_tail (v := v) [] (List.length_replicate (a := (0 : Byte))).symm
    simp only [List.nil_append, List.length_nil] at hcopy
    simp only [Stored.image] at hfound
    simp only [step, tree_update, hget, hfound.get?, if_pos, ne_eq, hlength, not_false_eq_true,
      gmem_get_of_lt hlen, hcopy, Option.bind_eq_bind, Option.bind_some, Option.map_some,
      Option.some.injEq] at hstep
    subst hstep
    refine ⟨_, (hfound.find_set _ key).trans (if_pos rfl), ?_⟩
    rw [hrecorded, sizeOf_itemOf, ← Value.bytes, v.length_bytes]
    exact hne.symm

/-- In every run whose calls meet the condition, no copy exceeds its block and the tree is
the map of the calls. -/
theorem run_isMap (target : Target) (ops : List Op) (hfit : AllFit target (fun _ => none) ops) :
    ∃ tree, run target .nil ops = some tree ∧ IsMap target ops tree := by
  obtain ⟨tree, hrun, h⟩ := run_holds (holds_nil target) hfit
  refine ⟨tree, hrun, h.ordered, fun key bytes hkey => ?_, fun key hkey => ?_,
    fun key hvalue => ?_, fun key n first hkey => ?_, fun key item => h.length⟩
  · exact (h.tree_find_eq key).trans (congrArg (Option.bind · _) hkey)
  · have hfind : tree_find tree key = none :=
      (h.tree_find_eq key).trans (congrArg (Option.bind · _) hkey)
    exact ⟨hfind, by rw [ctree_find, hfind]; rfl⟩
  · have hcalls := calls_foldl hfit key
    rw [show Stored.calls none = 0 from rfl, Nat.zero_add] at hcalls
    rw [h.getcount key hvalue, hcalls]
  · rw [ctree_find, h.tree_find_counted hkey, Option.map_some, Stored.image,
      List.drop_left' (Kd.length_bytesOf _ _)]

/-- The arguments for a copy of these bytes. -/
def valueOfBytes (bytes : List Byte) (h : bytes.length < 2 ^ 32) : Value where
  value := some bytes
  length := BitVec.ofNat 32 bytes.length
  length_eq := by
    rintro _ ⟨⟩
    exact (Nat.mod_eq_of_lt h).symm

theorem run_isMap_example :
    ∃ tree, run .win64 .nil [.update 3 (valueOfBytes [1, 2] (by decide)),
        .count 5 (valueOfBytes [7] (by decide)), .update 3 (valueOfBytes [4, 5] (by decide))] =
          some tree ∧
      IsMap .win64 [.update 3 (valueOfBytes [1, 2] (by decide)),
        .count 5 (valueOfBytes [7] (by decide)),
        .update 3 (valueOfBytes [4, 5] (by decide))] tree := by
  apply run_isMap
  refine ⟨⟨by decide, trivial⟩, ⟨by decide, trivial⟩, ⟨by decide, ?_⟩, trivial⟩
  rfl

/-- Two bytes, one byte and again two bytes under one key: the third copy takes the block of
one byte for one of two. -/
theorem replaced_overrun :
    run .win32 .nil [.update 3 (valueOfBytes [1, 2] (by decide)),
      .update 3 (valueOfBytes [3] (by decide)), .update 3 (valueOfBytes [4, 5] (by decide))] =
        none := rfl

end SdkTools.Windiff
