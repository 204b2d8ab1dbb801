import SdkTools.MemoryCache.CacheRemove

/-!
# Adding data

A node whose range is free is put into the cache; `Add` first removes what meets its range.
-/

namespace SdkTools.MemoryCache

open Lib Lib.BinTree Lib.Context Lib.Links

set_option autoImplicit false

variable {T : Target} {s s' : State} {ids : List Nat} {Node : Nat} {c : CACHE}

/-! ### The contents of a new node -/

theorem entry_setEntry_self : (s.setEntry Node c).entry Node = c := by
  rw [State.setEntry_entry, Function.update_self]

theorem entry_setEntry_of_ne {x : Nat} (hx : x ≠ Node) :
    (s.setEntry Node c).entry x = s.entry x := by
  rw [State.setEntry_entry, Function.update_of_ne hx]

theorem entry_setEntry_of_mem (hNode : Node ∉ ids) {x : Nat} (hx : x ∈ ids) :
    (s.setEntry Node c).entry x = s.entry x := by
  apply entry_setEntry_of_ne
  rintro rfl
  exact hNode hx

theorem Holds.setEntry (hs : Holds s ids) (hNode : Node ∉ ids) : Holds (s.setEntry Node c) ids := by
  refine ⟨?_, ?_, ?_⟩
  · simpa using hs.tree
  · intro x hx
    rw [entry_setEntry_of_mem hNode hx]
    exact hs.valid x hx
  · apply hs.apart.imp_of_mem
    intro x y hx hy hxy
    unfold Before
    rw [entry_setEntry_of_mem hNode hx, entry_setEntry_of_mem hNode hy]
    exact hxy

theorem cost_setEntry (T : Target) (hNode : Node ∉ ids) :
    cost T (s.setEntry Node c) ids = cost T s ids := by
  unfold cost
  congr 1
  apply List.map_congr_left
  intro x hx
  rw [entry_setEntry_of_mem hNode hx]

/-! ### Insertion -/

/-- A node on the books whose range is free goes into the tree. -/
theorem insert_spec (hs : Holds s ids) (hl : Ledger s (Node :: ids))
    (hcount : s.m_NodeCount = ids.length)
    (hsized : Sized T s (cost T s ids + (s.entry Node).cost T)) (hvalid : (s.entry Node).Valid)
    (hfree : ∀ x ∈ ids, Before s x Node ∨ Before s Node x) :
    ∃ s' before after, InsertNode s Node = some s' ∧ ids = before ++ after ∧
      Inv T s' (before ++ Node :: after) ∧ s'.entry = s.entry ∧
      Within (· ∈ Node :: ids) s.links s'.links ∧ s'.freed = s.freed ∧
      s'.allocated = s.allocated := by
  have hnodup : Node ∉ ids := by
    have hnodup := hl.nodup_iff.mpr List.nodup_range
    exact (List.nodup_cons.mp (List.nodup_append.mp hnodup).1).1
  have hroom : ids.length < s.allocated := hl.length_le
  obtain ⟨h, root, before, after, hrun, hids, hs', hwithin⟩ :=
    InsertNode_spec hs hnodup hroom hvalid hfree
  have hperm : (before ++ Node :: after).Perm (Node :: ids) := by
    rw [hids]
    exact List.perm_middle
  have hlength : (before ++ Node :: after).length = ids.length + 1 := hperm.length_eq
  have hmore : ids.length + 1 < 2 ^ 32 := by
    have hle := length_le_cost T s ids
    have hpos := T.sizeof_pos
    have hcovers := hsized.covers
    have hsize := hsized.size_le
    unfold CACHE.cost at hcovers
    omega
  refine ⟨_, before, after, hrun, hids, ⟨?_, ?_, ?_, ?_⟩, ?_, ?_, ?_, ?_⟩
  · exact hs'.congr (by simp) (by simp) (by simp)
  · exact (hl.perm hperm).congr (by simp) (by simp)
  · rw [State.setTree_m_NodeCount, State.setCount_m_NodeCount, hcount, ulong_of_lt hmore, hlength]
  · have hcost : cost T ((s.setCount (ulong (s.m_NodeCount + 1))).setTree h (some root))
        (before ++ Node :: after) = cost T s ids + (s.entry Node).cost T := by
      rw [cost_congr T (s := s) (by simp)]
      unfold cost
      rw [(hperm.map _).sum_eq, List.map_cons, List.sum_cons, Nat.add_comm]
    rw [hcost]
    exact hsized.congr (by simp) (by simp) (by simp)
  · simp
  · simpa using hwithin
  · simp
  · simp

theorem Inv.congr (hi : Inv T s ids) (hsame : SameNodes s s') (hl : Ledger s' ids)
    (hsized : Sized T s' (cost T s ids)) : Inv T s' ids where
  holds := hi.holds.congr hsame.links hsame.m_Root hsame.entry
  ledger := hl
  count := hsame.m_NodeCount.trans hi.count
  sized := by rwa [cost_congr T hsame.entry]

/-- A new node is filled and inserted. -/
theorem fill_spec (hs : Holds s ids) (hl : Ledger s (Node :: ids))
    (hcount : s.m_NodeCount = ids.length) (hsized : Sized T s (cost T s ids + c.cost T))
    (hvalid : c.Valid)
    (hfree : ∀ x ∈ ids, (s.entry x).stop ≤ c.Offset ∨ c.stop ≤ (s.entry x).Offset) :
    ∃ s' before after, InsertNode (s.setEntry Node c) Node = some s' ∧ ids = before ++ after ∧
      Inv T s' (before ++ Node :: after) ∧ s'.entry = (s.setEntry Node c).entry := by
  have hNode : Node ∉ ids := by
    have hnodup := hl.nodup_iff.mpr List.nodup_range
    exact (List.nodup_cons.mp (List.nodup_append.mp hnodup).1).1
  have hself : (s.setEntry Node c).entry Node = c := entry_setEntry_self
  obtain ⟨s', before, after, hrun, hids, hi', hentry, -⟩ :=
    insert_spec (T := T) (hs.setEntry (c := c) hNode) (hl.congr (by simp) (by simp))
      (by simpa using hcount) (by
        rw [hself, cost_setEntry T hNode]
        exact hsized.congr (by simp) (by simp) (by simp)) (by rwa [hself]) (by
        intro x hx
        unfold Before
        rw [hself, entry_setEntry_of_mem hNode hx]
        exact hfree x hx)
  exact ⟨s', before, after, hrun, hids, hi', hentry⟩

/-! ### `Add` -/

/-- What the cache has cached, in the order of the addresses. -/
def contents (s : State) (ids : List Nat) : List CACHE := ids.map s.entry

theorem contents_insert {before after : List Nat} (hNode : Node ∉ before ++ after)
    (hentry : s'.entry = (s.setEntry Node c).entry) :
    contents s' (before ++ Node :: after) = contents s before ++ c :: contents s after := by
  rw [List.mem_append, not_or] at hNode
  unfold contents
  rw [hentry, List.map_append, List.map_cons, entry_setEntry_self]
  congr 1
  · apply List.map_congr_left
    intro x hx
    exact entry_setEntry_of_mem hNode.1 hx
  · congr 1
    apply List.map_congr_left
    intro x hx
    exact entry_setEntry_of_mem hNode.2 hx

/-- `Add` removes what meets the range; with enough memory it inserts the data. -/
theorem Add_spec (hi : Inv T s ids) {BaseAddress : Nat} {UserBuffer : List UCHAR}
    (hon : s.m_MaxSize ≠ 0) (hpos : UserBuffer ≠ []) (hsmall : UserBuffer.length < 2 ^ 31)
    (hstop : BaseAddress + UserBuffer.length < 2 ^ 64) :
    ∃ s' ids' kept, Add T s BaseAddress UserBuffer = some s' ∧ Inv T s' ids' ∧
      kept = ids.filter
        (fun x => !meets s BaseAddress (searchRange s BaseAddress UserBuffer.length).2 x) ∧
      (contents s' ids' = contents s kept ∨ ∃ before after, kept = before ++ after ∧
        contents s' ids' =
          contents s before ++ ⟨BaseAddress, .data UserBuffer false⟩ :: contents s after) := by
  obtain ⟨s₁, hremove, hi₁, hentry₁⟩ := Remove_spec hi BaseAddress UserBuffer.length
  have hrange := searchRange_spec (s := s) (by omega : BaseAddress < 2 ^ 64)
    (by omega : UserBuffer.length < 2 ^ 32)
  generalize hkept : ids.filter
    (fun x => !meets s BaseAddress (searchRange s BaseAddress UserBuffer.length).2 x) = kept at hi₁
  have hlength := List.length_pos_iff.mpr hpos
  unfold Add
  rw [if_neg hon, hremove, Option.bind_some]
  obtain ⟨s₂, hsame, ⟨halloc, hsized, hallocated, hfreed⟩ | ⟨halloc, hsized, hl⟩⟩ :=
    allocBoth_spec hi₁.sized hsmall
  · rw [halloc]
    have hNode := hi₁.ledger.not_mem
    obtain ⟨s', before, after, hrun, hids, hi', hentry⟩ :=
      fill_spec (T := T) (c := ⟨BaseAddress, .data UserBuffer false⟩)
        (hi₁.holds.congr hsame.links hsame.m_Root hsame.entry)
        (hi₁.ledger.add hfreed hallocated) (hsame.m_NodeCount.trans hi₁.count) (by
          rw [cost_congr T hsame.entry, CACHE.cost, if_neg (by simp [CACHE.isError]),
            ← Nat.add_assoc]
          exact hsized) ⟨hlength, hstop⟩ (by
          intro x hx
          rw [hsame.entry, hentry₁]
          rw [← hkept, List.mem_filter, Bool.not_eq_true', meets_eq_false] at hx
          have hvalid := hi.holds.valid x hx.1
          have hpos := hvalid.offset_lt
          have hlt := hvalid.stop_lt
          change _ ≤ BaseAddress ∨ BaseAddress + UserBuffer.length ≤ _
          omega)
    refine ⟨s', before ++ s₁.allocated :: after, kept, hrun, hi', rfl, Or.inr
      ⟨before, after, hids, ?_⟩⟩
    rw [contents_insert (by rwa [← hids]) hentry]
    unfold contents
    rw [hsame.entry, hentry₁]
  · rw [halloc]
    refine ⟨s₂, kept, kept, rfl, hi₁.congr hsame (hl kept hi₁.ledger) hsized, rfl, Or.inl ?_⟩
    unfold contents
    rw [hsame.entry, hentry₁]

end SdkTools.MemoryCache
