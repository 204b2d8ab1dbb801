import SdkTools.MemoryCache.CacheInsert

/-!
# Allocation and removal

`m_Size` covers what the cache has allocated. Every node allocated is either in the tree or freed
once. `Remove` takes out the nodes that meet a range.
-/

namespace SdkTools.MemoryCache

open Lib Lib.BinTree Lib.Context Lib.Links

set_option autoImplicit false

variable {T : Target} {s s' : State} {ids : List Nat} {total Length : Nat}

/-! ### Sizes -/

/-- What a node takes with its data. -/
def CACHE.cost (T : Target) (c : CACHE) : Nat :=
  (if c.isError then 0 else c.Length) + T.sizeof_CACHE

def cost (T : Target) (s : State) (ids : List Nat) : Nat :=
  (ids.map fun x => (s.entry x).cost T).sum

/-- `m_Size` covers this total, and it is the total as long as no call of `malloc` failed. -/
structure Sized (T : Target) (s : State) (total : Nat) : Prop where
  covers : total ≤ s.m_Size
  tight : (∀ k < s.mallocs, T.malloc k = true) → s.m_Size = total
  size_le : s.m_Size ≤ 2 ^ 30 + 1
  max_le : s.m_MaxSize ≤ 2 ^ 30 ∧ s.m_UserSize ≤ 2 ^ 30

/-- Only these fields matter. -/
theorem Sized.congr (hsized : Sized T s total) (hsize : s'.m_Size = s.m_Size)
    (hcalls : s'.mallocs = s.mallocs)
    (hmax : s'.m_MaxSize = s.m_MaxSize ∧ s'.m_UserSize = s.m_UserSize) : Sized T s' total := by
  obtain ⟨hcovers, htight, hle, hmaxle⟩ := hsized
  refine ⟨hsize ▸ hcovers, ?_, hsize ▸ hle, ?_⟩
  · intro hall
    rw [hsize]
    exact htight (hcalls ▸ hall)
  · rw [hmax.1, hmax.2]
    exact hmaxle

/-- The states differ in their sizes and counts only. -/
structure SameNodes (s s' : State) : Prop where
  links : s'.links = s.links
  entry : s'.entry = s.entry
  m_Root : s'.m_Root = s.m_Root
  m_NodeCount : s'.m_NodeCount = s.m_NodeCount
  m_MaxSize : s'.m_MaxSize = s.m_MaxSize

theorem SameNodes.refl (s : State) : SameNodes s s := ⟨rfl, rfl, rfl, rfl, rfl⟩

theorem SameNodes.trans {s'' : State} (h : SameNodes s s') (h' : SameNodes s' s'') :
    SameNodes s s'' where
  links := h'.links.trans h.links
  entry := h'.entry.trans h.entry
  m_Root := h'.m_Root.trans h.m_Root
  m_NodeCount := h'.m_NodeCount.trans h.m_NodeCount
  m_MaxSize := h'.m_MaxSize.trans h.m_MaxSize

theorem SameNodes.free (s : State) (Length : Nat) : SameNodes s (Free s Length) := by
  constructor <;> simp [Free]

theorem SameNodes.freeNode (T : Target) (s : State) (Node : Nat) :
    SameNodes s (freeNode T s Node) := by
  constructor <;> simp [MemoryCache.freeNode, Free]

theorem SameNodes.addNode (s : State) : SameNodes s s.addNode := by
  constructor <;> simp

theorem Alloc_spec (hsized : Sized T s total) (hLength : Length < 2 ^ 31 + 2 ^ 29) :
    ∃ s', SameNodes s s' ∧ s'.allocated = s.allocated ∧ s'.freed = s.freed ∧
      (Alloc T s Length = (true, s') ∧ Sized T s' (total + Length) ∨
        Alloc T s Length = (false, s') ∧ Sized T s' total) := by
  obtain ⟨hcovers, htight, hsize, hmax⟩ := hsized
  have hsum : ulong (s.m_Size + Length) = s.m_Size + Length := ulong_of_lt (by omega)
  have hover : ulong (s.m_MaxSize + 1) = s.m_MaxSize + 1 := ulong_of_lt (by omega)
  unfold Alloc
  rw [hsum, hover]
  by_cases hfull : s.m_Size + Length > s.m_MaxSize
  · rw [if_pos hfull]
    exact ⟨s, SameNodes.refl s, rfl, rfl, Or.inr ⟨rfl, hcovers, htight, hsize, hmax⟩⟩
  rw [if_neg hfull]
  by_cases hmalloc : T.malloc s.mallocs = true
  · rw [if_pos hmalloc]
    refine ⟨(s.setSize (s.m_Size + Length)).countMalloc, by constructor <;> simp, by simp,
      by simp, Or.inl ⟨rfl, ?_⟩⟩
    constructor <;> simp only [State.countMalloc_m_Size, State.setSize_m_Size,
      State.countMalloc_mallocs, State.setSize_mallocs, State.countMalloc_m_MaxSize,
      State.setSize_m_MaxSize, State.countMalloc_m_UserSize, State.setSize_m_UserSize]
    · omega
    · intro hall
      rw [htight fun k hk => hall k (Nat.lt_succ_of_lt hk)]
    · omega
    · exact hmax
  · rw [if_neg hmalloc]
    refine ⟨(s.setSize (s.m_MaxSize + 1)).countMalloc, by constructor <;> simp, by simp,
      by simp, Or.inr ⟨rfl, ?_⟩⟩
    constructor <;> simp only [State.countMalloc_m_Size, State.setSize_m_Size,
      State.countMalloc_mallocs, State.setSize_mallocs, State.countMalloc_m_MaxSize,
      State.setSize_m_MaxSize, State.countMalloc_m_UserSize, State.setSize_m_UserSize]
    · omega
    · intro hall
      exact absurd (hall s.mallocs (Nat.lt_succ_self _)) hmalloc
    · omega
    · exact hmax

theorem Free_spec (hsized : Sized T s (total + Length)) : Sized T (Free s Length) total := by
  obtain ⟨hcovers, htight, hsize, hmax⟩ := hsized
  have hsub : ulongSub s.m_Size Length = s.m_Size - Length :=
    ulongSub_of_le (by omega) (by omega)
  unfold Free
  rw [hsub]
  constructor <;> simp only [State.setSize_m_Size, State.setSize_mallocs, State.setSize_m_MaxSize,
    State.setSize_m_UserSize]
  · omega
  · intro hall
    have := htight hall
    omega
  · omega
  · exact hmax

theorem freeNode_spec (Node : Nat) (hsized : Sized T s (total + T.sizeof_CACHE)) :
    Sized T (freeNode T s Node) total := by
  apply (Free_spec hsized).congr <;> simp [freeNode]

/-- A node is freed, with its data if it has some. -/
theorem Sized.drop {c : CACHE} (hsized : Sized T s (total + c.cost T)) (Node : Nat) :
    (c.isError = true → Sized T (freeNode T s Node) total) ∧
      (c.isError = false → Sized T (freeNode T (Free s c.Length) Node) total) := by
  unfold CACHE.cost at hsized
  rw [← Nat.add_assoc] at hsized
  constructor
  · intro herror
    rw [if_pos herror, Nat.add_zero] at hsized
    exact freeNode_spec Node hsized
  · intro herror
    rw [if_neg (by simp [herror]), Nat.add_right_comm] at hsized
    exact freeNode_spec Node (Free_spec hsized)

/-! ### Nodes allocated -/

/-- The nodes in the tree and those freed are all the nodes, each once. -/
def Ledger (s : State) (ids : List Nat) : Prop :=
  (ids ++ s.freed).Perm (List.range s.allocated)

theorem Ledger.congr (hl : Ledger s ids) (hfreed : s'.freed = s.freed)
    (hallocated : s'.allocated = s.allocated) : Ledger s' ids := by
  unfold Ledger
  rw [hfreed, hallocated]
  exact hl

theorem Ledger.length_le (hl : Ledger s ids) : ids.length ≤ s.allocated := by
  have hlen := hl.length_eq
  rw [List.length_append, List.length_range] at hlen
  omega

theorem Ledger.not_mem (hl : Ledger s ids) : s.allocated ∉ ids := by
  intro hmem
  exact Nat.lt_irrefl _ (List.mem_range.mp (hl.mem_iff.mp (List.mem_append_left _ hmem)))

/-- A new node. -/
theorem Ledger.add (hl : Ledger s ids) (hfreed : s'.freed = s.freed)
    (hallocated : s'.allocated = s.allocated + 1) : Ledger s' (s.allocated :: ids) := by
  unfold Ledger
  rw [hfreed, hallocated, List.range_succ]
  exact (hl.cons _).trans (List.perm_append_singleton _ _).symm

/-- A node is freed. -/
theorem Ledger.free {Node : Nat} (hl : Ledger s (Node :: ids)) (hfreed : s'.freed = Node :: s.freed)
    (hallocated : s'.allocated = s.allocated) : Ledger s' ids := by
  unfold Ledger
  rw [hfreed, hallocated]
  exact List.perm_middle.trans hl

theorem Ledger.perm {ids' : List Nat} (hl : Ledger s ids) (hperm : ids'.Perm ids) :
    Ledger s ids' :=
  (hperm.append_right _).trans hl

/-- Either both are allocated, or nothing is kept. -/
theorem allocBoth_spec (hsized : Sized T s total) (hLength : Length < 2 ^ 31) :
    ∃ s', SameNodes s s' ∧
      (allocBoth T s Length = (some s.allocated, s') ∧
          Sized T s' (total + Length + T.sizeof_CACHE) ∧ s'.allocated = s.allocated + 1 ∧
          s'.freed = s.freed ∨
        allocBoth T s Length = (none, s') ∧ Sized T s' total ∧
          ∀ ids, Ledger s ids → Ledger s' ids) := by
  have hsmall' : T.sizeof_CACHE < 2 ^ 31 + 2 ^ 29 := Nat.lt_of_le_of_lt T.sizeof_le (by omega)
  unfold allocBoth allocNode
  obtain ⟨s₁, hsame₁, halloc₁, hfreed₁, ⟨hdata, hsized₁⟩ | ⟨hdata, hsized₁⟩⟩ :=
    Alloc_spec hsized (by omega : Length < 2 ^ 31 + 2 ^ 29)
  · obtain ⟨s₂, hsame₂, halloc₂, hfreed₂, ⟨hnode, hboth⟩ | ⟨hnode, hone⟩⟩ :=
      Alloc_spec hsized₁ hsmall'
    · simp only [hdata, hnode]
      have hsame := hsame₁.trans hsame₂
      refine ⟨s₂.addNode, hsame.trans (SameNodes.addNode s₂), Or.inl ⟨?_,
        hboth.congr (by simp) (by simp) (by simp), ?_, ?_⟩⟩
      · rw [halloc₂, halloc₁]
      · rw [State.addNode_allocated, halloc₂, halloc₁]
      · rw [State.addNode_freed, hfreed₂, hfreed₁]
    · simp only [hdata, hnode]
      refine ⟨Free s₂ Length, (hsame₁.trans hsame₂).trans (SameNodes.free _ _), Or.inr ⟨rfl,
        Free_spec hone, ?_⟩⟩
      intro ids hl
      apply hl.congr
      · simp [Free, hfreed₂, hfreed₁]
      · simp [Free, halloc₂, halloc₁]
  · obtain ⟨s₂, hsame₂, halloc₂, hfreed₂, ⟨hnode, hone⟩ | ⟨hnode, hnone⟩⟩ :=
      Alloc_spec hsized₁ hsmall'
    · simp only [hdata, hnode]
      have hsame := hsame₁.trans hsame₂
      have hone' : Sized T s₂.addNode (total + T.sizeof_CACHE) :=
        hone.congr (by simp) (by simp) (by simp)
      refine ⟨freeNode T s₂.addNode s₂.allocated,
        (hsame.trans (SameNodes.addNode s₂)).trans (SameNodes.freeNode T _ _),
        Or.inr ⟨rfl, freeNode_spec _ hone', ?_⟩⟩
      intro ids hl
      have hl₂ := hl.congr (hfreed₂.trans hfreed₁) (halloc₂.trans halloc₁)
      have hl₃ : Ledger s₂.addNode (s₂.allocated :: ids) := hl₂.add (by simp) (by simp)
      exact hl₃.free (by simp [freeNode, Free]) (by simp [freeNode, Free])
    · simp only [hdata, hnode]
      refine ⟨s₂, hsame₁.trans hsame₂, Or.inr ⟨rfl, hnone, ?_⟩⟩
      intro ids hl
      exact hl.congr (hfreed₂.trans hfreed₁) (halloc₂.trans halloc₁)

/-! ### Nodes that leave the tree -/

/-- The tree of the links has these nodes from left to right. -/
def Treed (s : State) (ids : List Nat) : Prop :=
  ∃ t, s.links.IsTree s.m_Root t ∧ t.inorder = ids

theorem Treed.congr (ht : Treed s ids) (hlinks : s'.links = s.links)
    (hroot : s'.m_Root = s.m_Root) : Treed s' ids := by
  unfold Treed
  rw [hlinks, hroot]
  exact ht

theorem pRtlDelete_spec (htree : Treed s ids) {Node : Nat} (hmem : Node ∈ ids) {fuel : Nat}
    (hfuel : ids.length ≤ fuel) :
    ∃ h root, pRtlDelete fuel s.links Node = some (h, root) ∧
      Treed (s.setTree h root) (ids.erase Node) := by
  obtain ⟨t, htree, rfl⟩ := htree
  obtain ⟨ctx, l, r, hplug⟩ := exists_plug hmem []
  change plug ctx (node l Node r) = t at hplug
  have hat : s.links.At ctx (node l Node r) := by
    rw [At.plug_iff, hplug]
    exact htree.at_root
  rw [← hplug] at hfuel
  obtain ⟨h, root, t', u, hrun, htree', hu, horder⟩ := pRtlDelete_at hat hfuel
  refine ⟨h, root, hrun, t', htree', ?_⟩
  obtain ⟨before, after, hinorder, -⟩ := inorder_plug ctx
  have hnodup := htree.at_root.nodup
  simp only [nodes, List.flatMap_nil, List.append_nil] at hnodup
  have hsplit : t.inorder = (before ++ l.inorder) ++ Node :: (r.inorder ++ after) := by
    rw [← hplug, hinorder]
    simp [inorder]
  rw [hsplit] at hnodup
  have hNode : Node ∉ before ++ l.inorder := by
    intro hin
    exact (List.nodup_append.mp hnodup).2.2 Node hin Node List.mem_cons_self rfl
  rw [horder, hinorder, hu, hsplit, List.erase_append_right _ hNode, List.erase_cons_head]
  simp

/-- A node is freed with its data. -/
theorem removeNode_spec {Node : Nat} (htree : Treed s ids) (hmem : Node ∈ ids)
    (hl : Ledger s ids) (hsized : Sized T s (total + (s.entry Node).cost T))
    (hcount : s.m_NodeCount = ids.length) (hlen : ids.length < 2 ^ 32) :
    ∃ s', removeNode T s Node = some s' ∧ Treed s' (ids.erase Node) ∧
      Ledger s' (ids.erase Node) ∧ Sized T s' total ∧
      s'.m_NodeCount = (ids.erase Node).length ∧ s'.entry = s.entry ∧ s'.m_Misses = s.m_Misses := by
  obtain ⟨h, root, hrun, htree'⟩ := pRtlDelete_spec htree hmem hl.length_le
  have hpos := List.length_pos_of_mem hmem
  have hless : ulongSub s.m_NodeCount 1 = (ids.erase Node).length := by
    rw [List.length_erase_of_mem hmem, hcount]
    exact ulongSub_of_le hpos hlen
  have hl' : Ledger s (Node :: ids.erase Node) := hl.perm (List.perm_cons_erase hmem).symm
  have hsized' : Sized T (s.setTree h root) (total + (s.entry Node).cost T) :=
    hsized.congr (by simp) (by simp) (by simp)
  unfold removeNode
  rw [hrun]
  cases herror : (s.entry Node).isError with
  | true =>
    simp only [Option.map_some, herror, if_true]
    refine ⟨_, rfl, ?_, hl'.free (by simp [freeNode, Free]) (by simp [freeNode, Free]),
      ((hsized'.drop Node).1 herror).congr (by simp) (by simp) (by simp), ?_, ?_, ?_⟩
    · exact htree'.congr (by simp [freeNode, Free]) (by simp [freeNode, Free])
    all_goals simp [freeNode, Free, hless]
  | false =>
    simp only [Option.map_some, herror, Bool.false_eq_true, if_false]
    refine ⟨_, rfl, ?_, hl'.free (by simp [freeNode, Free]) (by simp [freeNode, Free]),
      ((hsized'.drop Node).2 herror).congr (by simp) (by simp) (by simp), ?_, ?_, ?_⟩
    · exact htree'.congr (by simp [freeNode, Free]) (by simp [freeNode, Free])
    all_goals simp [freeNode, Free, hless]

/-! ### The invariant -/

/-- The cache has these nodes, and its books agree with them. -/
structure Inv (T : Target) (s : State) (ids : List Nat) : Prop where
  holds : Holds s ids
  ledger : Ledger s ids
  count : s.m_NodeCount = ids.length
  sized : Sized T s (cost T s ids)

theorem length_le_cost (T : Target) (s : State) (ids : List Nat) : ids.length ≤ cost T s ids := by
  induction ids with
  | nil => exact Nat.le_refl _
  | cons x ids ih =>
    have hpos := T.sizeof_pos
    simp only [cost, List.map_cons, List.sum_cons, List.length_cons, CACHE.cost] at ih ⊢
    omega

theorem Inv.length_lt (hi : Inv T s ids) : ids.length < 2 ^ 32 := by
  have hle := length_le_cost T s ids
  have hcovers := hi.sized.covers
  have hsize := hi.sized.size_le
  omega

theorem cost_erase (T : Target) (s : State) {x : Nat} (hx : x ∈ ids) :
    cost T s (ids.erase x) + (s.entry x).cost T = cost T s ids := by
  unfold cost
  rw [Nat.add_comm]
  exact List.sum_map_erase (fun x => (s.entry x).cost T) hx

theorem cost_congr (T : Target) (h : s'.entry = s.entry) (ids : List Nat) :
    cost T s' ids = cost T s ids := by
  unfold cost
  rw [h]

theorem Holds.treed (hs : Holds s ids) : Treed s ids := hs.tree

/-- A node leaves the cache. -/
theorem Inv.remove (hi : Inv T s ids) {x : Nat} (hx : x ∈ ids) :
    ∃ s', removeNode T s x = some s' ∧ Inv T s' (ids.erase x) ∧ s'.entry = s.entry ∧
      s'.m_Misses = s.m_Misses := by
  obtain ⟨hs, hl, hcount, hsized⟩ := hi
  have hlen := Inv.length_lt ⟨hs, hl, hcount, hsized⟩
  rw [← cost_erase T s hx] at hsized
  obtain ⟨s', hrun, htree', hl', hsized', hcount', hentry, hmisses⟩ :=
    removeNode_spec hs.treed hx hl hsized hcount hlen
  refine ⟨s', hrun, ⟨⟨htree', ?_, ?_⟩, hl', hcount', ?_⟩, hentry, hmisses⟩
  · intro y hy
    rw [hentry]
    exact hs.valid y (List.mem_of_mem_erase hy)
  · unfold Before
    rw [hentry]
    exact hs.apart.sublist List.erase_sublist
  · rw [cost_congr T hentry]
    exact hsized'

/-- Nothing in a cache depends on the misses. -/
theorem meets_congr (hentry : s'.entry = s.entry) : meets s' = meets s := by
  unfold meets
  rw [hentry]

/-- The loop of `Remove` takes out the nodes that meet the range searched. -/
theorem removeLoop_spec {fuel : Nat} (Offset Length : Nat) (hi : Inv T s ids)
    (hfuel : ids.length < fuel) :
    ∃ s', removeLoop T Offset Length fuel s = some s' ∧
      Inv T s' (ids.filter fun x => !meets s Offset (searchRange s Offset Length).2 x) ∧
      s'.entry = s.entry ∧ s'.m_Misses = s.m_Misses := by
  induction fuel generalizing s ids with
  | zero => omega
  | succ fuel ih =>
    obtain ⟨used, hrun, -, -⟩ := Lookup_spec hi.holds hi.ledger.length_le Offset Length
    rw [removeLoop, hrun]
    cases hfind : ids.find? (meets s Offset (searchRange s Offset Length).2) with
    | none =>
      refine ⟨s, rfl, ?_, rfl, rfl⟩
      rw [List.filter_eq_self.mpr]
      · exact hi
      · intro x hx
        rw [List.find?_eq_none] at hfind
        simpa using hfind x hx
    | some x =>
      have hx := List.mem_of_find?_eq_some hfind
      have hmeets := List.find?_some hfind
      obtain ⟨s₁, hremove, hi₁, hentry, hmisses⟩ := hi.remove hx
      have hpos := List.length_pos_of_mem hx
      have hless : (ids.erase x).length < fuel := by
        rw [List.length_erase_of_mem hx]
        omega
      obtain ⟨s', hrest, hi', hentry', hmisses'⟩ := ih hi₁ hless
      dsimp only
      rw [hremove, Option.bind_some, hrest]
      refine ⟨s', rfl, ?_, hentry'.trans hentry, hmisses'.trans hmisses⟩
      have hrange : searchRange s₁ Offset Length = searchRange s Offset Length := by
        unfold searchRange
        rw [hmisses]
      rw [hrange, meets_congr hentry, hi.holds.nodup.erase_eq_filter, List.filter_filter] at hi'
      convert hi' using 2
      funext y
      by_cases hy : y = x
      · rw [hy, hmeets]
        rfl
      · simp [hy]

theorem Remove_spec (hi : Inv T s ids) (Offset Length : Nat) :
    ∃ s', Remove T s Offset Length = some s' ∧
      Inv T s' (ids.filter fun x => !meets s Offset (searchRange s Offset Length).2 x) ∧
      s'.entry = s.entry :=  by
  obtain ⟨s', hrun, hi', hentry, -⟩ :=
    removeLoop_spec Offset Length hi (Nat.lt_succ_of_le hi.ledger.length_le)
  exact ⟨s', hrun, hi', hentry⟩

end SdkTools.MemoryCache
