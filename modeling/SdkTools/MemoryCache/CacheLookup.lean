import SdkTools.MemoryCache.Cache
import SdkTools.MemoryCache.SplaySwap

/-!
# Searching the cache

A cache holds the nodes of its tree from left to right, and their ranges do not overlap.
`Lookup` finds the first one of them that meets the range searched.
-/

namespace SdkTools.MemoryCache

open Lib Lib.BinTree Lib.Links

set_option autoImplicit false

/-- The first address behind the node's range. -/
def CACHE.stop (c : CACHE) : Nat := c.Offset + c.Length

structure CACHE.Valid (c : CACHE) : Prop where
  length_pos : 0 < c.Length
  stop_lt : c.stop < 2 ^ 64

theorem CACHE.Valid.offset_lt {c : CACHE} (hc : c.Valid) : c.Offset < c.stop :=
  Nat.lt_add_of_pos_right hc.length_pos

/-- The range of the first node ends before that of the second one. -/
def Before (s : State) (x y : Nat) : Prop := (s.entry x).stop ≤ (s.entry y).Offset

/-- The nodes of the tree from left to right. -/
structure Holds (s : State) (ids : List Nat) : Prop where
  tree : ∃ t, s.links.IsTree s.m_Root t ∧ t.inorder = ids
  valid : ∀ x ∈ ids, (s.entry x).Valid
  apart : ids.Pairwise (Before s)

/-- The other fields do not matter. -/
theorem Holds.congr {s s' : State} {ids : List Nat} (hs : Holds s ids)
    (hlinks : s'.links = s.links) (hroot : s'.m_Root = s.m_Root) (hentry : s'.entry = s.entry) :
    Holds s' ids := by
  obtain ⟨htree, hvalid, hapart⟩ := hs
  refine ⟨?_, ?_, ?_⟩
  · rw [hlinks, hroot]
    exact htree
  · rw [hentry]
    exact hvalid
  · unfold Before
    rw [hentry]
    exact hapart

/-- The node has data in the range. -/
def meets (s : State) (Offset SumOffsetLength x : Nat) : Bool :=
  decide ((s.entry x).Offset < SumOffsetLength) && decide (Offset < (s.entry x).stop)

theorem meets_iff {s : State} {Offset Sum x : Nat} : meets s Offset Sum x = true ↔
    (s.entry x).Offset < Sum ∧ Offset < (s.entry x).stop := by
  simp [meets]

theorem meets_eq_false {s : State} {Offset Sum x : Nat} : meets s Offset Sum x = false ↔
    Sum ≤ (s.entry x).Offset ∨ (s.entry x).stop ≤ Offset := by
  rw [← Bool.not_eq_true, meets_iff]
  omega

variable {s : State} {ids : List Nat} {Offset Length : Nat}

theorem Holds.nodup (hs : Holds s ids) : ids.Nodup := by
  obtain ⟨t, htree, rfl⟩ := hs.tree
  simpa [Context.nodes] using htree.at_root.nodup

/-- What the loop finds in a subtree; otherwise the node found above it stays. -/
theorem lookupLoop_spec (Offset : Nat) {t : BinTree Nat} (hlinked : s.links.Linked t)
    (hvalid : ∀ x ∈ t.inorder, (s.entry x).Valid) (hapart : t.inorder.Pairwise (Before s))
    {fuel : Nat} (hfuel : t.inorder.length < fuel) (Length Sum : Nat) (Node2 : Option Nat) :
    ∃ used, lookupLoop s Offset fuel t.root Length Sum Node2 =
        some ((t.inorder.find? (meets s Offset Sum)).or Node2, used) ∧
      (t.inorder.find? (meets s Offset Sum) = none → used = Length) ∧
      ∀ x, t.inorder.find? (meets s Offset Sum) = some x → Offset < (s.entry x).Offset →
        used = ulong ((s.entry x).Offset - Offset) := by
  induction t generalizing fuel Length Sum Node2 with
  | leaf =>
    obtain ⟨fuel, rfl⟩ := Nat.exists_eq_succ_of_ne_zero (Nat.ne_of_gt hfuel)
    refine ⟨Length, rfl, fun _ => rfl, ?_⟩
    intro x hx
    cases hx
  | node l x r ihl ihr =>
    obtain ⟨fuel, rfl⟩ := Nat.exists_eq_succ_of_ne_zero (Nat.ne_of_gt (Nat.zero_lt_of_lt hfuel))
    obtain ⟨⟨hcl, -, hl⟩, hcr, -, hr⟩ := hlinked
    simp only [inorder, List.mem_append, List.mem_cons, List.length_append, List.length_cons]
      at hvalid hfuel
    obtain ⟨hapl, hapr, hacross⟩ := List.pairwise_append.mp hapart
    obtain ⟨hxr, hapr⟩ := List.pairwise_cons.mp hapr
    have hlx (y : Nat) (hy : y ∈ l.inorder) : (s.entry y).stop ≤ (s.entry x).Offset :=
      hacross y hy x List.mem_cons_self
    have hxr (y : Nat) (hy : y ∈ r.inorder) : (s.entry x).stop ≤ (s.entry y).Offset := hxr y hy
    have hx := hvalid x (Or.inr (Or.inl rfl))
    have hpos := hx.offset_lt
    have hwrap : ulong64 ((s.entry x).Offset + (s.entry x).Length) = (s.entry x).stop :=
      ulong64_of_lt hx.stop_lt
    have ihl := @ihl hl (fun y hy => hvalid y (Or.inl hy)) hapl fuel (by omega)
    have ihr := @ihr hr (fun y hy => hvalid y (Or.inr (Or.inr hy))) hapr fuel (by omega)
    rw [root, lookupLoop, hwrap, hcl, hcr]
    simp only [inorder, List.find?_append, List.find?_cons]
    by_cases hsum : Sum ≤ (s.entry x).Offset
    · -- neither the node nor those right of it start in the range
      have hno : meets s Offset Sum x = false := meets_eq_false.mpr (Or.inl hsum)
      have hright : r.inorder.find? (meets s Offset Sum) = none := by
        rw [List.find?_eq_none]
        intro y hy
        rw [Bool.not_eq_true, meets_eq_false]
        have := hxr y hy
        omega
      rw [if_pos hsum, hno, hright, Option.or_none]
      exact ihl Length Sum Node2
    rw [if_neg hsum]
    have hleft (hle : (s.entry x).Offset ≤ Offset) :
        l.inorder.find? (meets s Offset Sum) = none := by
      rw [List.find?_eq_none]
      intro y hy
      rw [Bool.not_eq_true, meets_eq_false]
      have := hlx y hy
      omega
    by_cases hstop : (s.entry x).stop ≤ Offset
    · have hno : meets s Offset Sum x = false := meets_eq_false.mpr (Or.inr hstop)
      rw [if_pos hstop, hno, hleft (by omega), Option.none_or]
      exact ihr Length Sum Node2
    rw [if_neg hstop]
    have hmeets : meets s Offset Sum x = true := by
      rw [meets_iff]
      omega
    rw [hmeets]
    by_cases hstart : (s.entry x).Offset ≤ Offset
    · rw [if_pos hstart, hleft hstart]
      refine ⟨Length, rfl, ?_, ?_⟩
      · intro hnone
        cases hnone
      · intro y hy hlt
        cases hy
        omega
    rw [if_neg hstart]
    -- the nodes on the left end before this one starts
    have hsame : l.inorder.find? (meets s Offset (s.entry x).Offset) =
        l.inorder.find? (meets s Offset Sum) := by
      apply List.find?_congr
      intro y hy
      rw [Bool.eq_iff_iff, meets_iff, meets_iff]
      have hy' := (hvalid y (Or.inl hy)).offset_lt
      have := hlx y hy
      omega
    obtain ⟨used, hrun, hnone, hsome⟩ :=
      ihl (ulong ((s.entry x).Offset - Offset)) (s.entry x).Offset (some x)
    rw [hsame] at hrun hnone hsome
    refine ⟨used, ?_, ?_, ?_⟩
    · rw [hrun, Option.or_assoc, Option.some_or]
    · intro hall
      cases hfind : l.inorder.find? (meets s Offset Sum) <;> rw [hfind] at hall <;> cases hall
    · intro y hy hlt
      cases hfind : l.inorder.find? (meets s Offset Sum) with
      | none =>
        rw [hfind] at hy
        cases hy
        exact hnone hfind
      | some z =>
        rw [hfind] at hy
        cases hy
        exact hsome _ hfind hlt

/-- The length searched and the end of the range. -/
theorem searchRange_spec (hOffset : Offset < 2 ^ 64) (hLength : Length < 2 ^ 32) :
    (searchRange s Offset Length).1 < 2 ^ 32 ∧
    (searchRange s Offset Length).2 ≤ Offset + (searchRange s Offset Length).1 ∧
    min (Offset + Length) (2 ^ 64 - 1) ≤ (searchRange s Offset Length).2 ∧
    Offset + (searchRange s Offset Length).1 ≤ 2 ^ 64 ∧
    min (Offset + (searchRange s Offset Length).1) (2 ^ 64 - 1) =
      (searchRange s Offset Length).2 ∧
    (0 < Length → 0 < (searchRange s Offset Length).1) ∧
    (searchRange s Offset Length).1 ≤ max Length 0x80 := by
  unfold searchRange ulong ulong64
  generalize hL : (if Length < 0x80 ∧ s.m_Misses > 3 then 0x80 else Length) = L
  have hle : Length ≤ L ∧ L < 2 ^ 32 ∧ L ≤ max Length 0x80 := by
    subst hL
    split <;> omega
  dsimp only
  split <;> refine ⟨?_, ?_, ?_, ?_, ?_, ?_, ?_⟩ <;> dsimp only <;> omega

/-- `Lookup` finds the first node that meets the range. -/
theorem Lookup_spec (hs : Holds s ids) (hfew : ids.length ≤ s.allocated) (Offset Length : Nat) :
    ∃ used, Lookup s Offset Length =
        some (ids.find? (meets s Offset (searchRange s Offset Length).2), used) ∧
      (ids.find? (meets s Offset (searchRange s Offset Length).2) = none →
        used = (searchRange s Offset Length).1) ∧
      ∀ x, ids.find? (meets s Offset (searchRange s Offset Length).2) = some x →
        Offset < (s.entry x).Offset → used = ulong ((s.entry x).Offset - Offset) := by
  obtain ⟨t, htree, rfl⟩ := hs.tree
  have h := lookupLoop_spec Offset htree.at_root.tree hs.valid hs.apart
    (Nat.lt_succ_of_le hfew) (searchRange s Offset Length).1 (searchRange s Offset Length).2 none
  rw [htree.root_eq, Option.or_none] at h
  exact h

end SdkTools.MemoryCache
