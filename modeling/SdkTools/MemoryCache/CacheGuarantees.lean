import SdkTools.MemoryCache.CacheRuns

/-!
# What the cache guarantees

Each operation on the nodes in the order of their addresses, and all of them in any run.
-/

namespace SdkTools.MemoryCache

open Lib Lib.BinTree Lib.Context Lib.Links

set_option autoImplicit false

variable {T : Target} {mem : Memory} {s : State} {ids : List Nat}

/-! ### A small cache -/

/-- Sixteen bytes can be read. -/
def smallMemory : Memory := fun a =>
  if 0x1000 ≤ a ∧ a < 0x1010 then some (BitVec.ofNat 8 a) else none

/-- A target without interruptions and with enough memory. -/
def plainTarget : Target where
  sizeof_CACHE := 64
  sizeof_pos := by decide
  sizeof_le := by decide
  malloc _ := true
  ReadUncached mem _ a n :=
    if readable mem a n = [] then (UNSUCCESSFUL, []) else (S_OK, readable mem a n)
  WriteUncached mem a bytes := ((S_OK, bytes.length), fun b =>
    if a ≤ b ∧ b < a + bytes.length then bytes[b - a]? else mem b)
  m_SystemRangeStart := 0x80000000

theorem plainTarget_serves : Serves plainTarget := by
  refine ⟨fun mem hlast => ⟨?_, hlast⟩, ?_⟩
  · intro call a n hn
    change Answers mem a n (if readable mem a n = [] then (UNSUCCESSFUL, [])
      else (S_OK, readable mem a n))
    by_cases hnone : readable mem a n = []
    · rw [if_pos hnone]
      refine Answers.failed (by decide) (by decide) ?_
      have hstops := (longest_iff.mpr rfl : Longest mem a n (readable mem a n)).stops
      rw [hnone] at hstops
      exact hstops hn
    · rw [if_neg hnone]
      exact Answers.read hnone (longest_iff.mpr rfl)
  · intro mem a bytes b hout
    exact if_neg (by omega)

/-- One node with four bytes. -/
def smallCache : State :=
  { create ⟨fun _ => 0, fun _ _ => none⟩ (fun _ => ⟨0x1000, .data [0, 1, 2, 3] false⟩) 0x400 with
    m_Root := some 0
    m_Size := 68
    m_NodeCount := 1
    allocated := 1
    mallocs := 2 }

theorem smallCache_inv : Inv plainTarget smallCache [0] := by
  refine ⟨⟨⟨node leaf 0 leaf, ⟨⟨⟨⟨rfl, ?_, trivial⟩, rfl, ?_, trivial⟩, ?_, by decide⟩, rfl⟩, rfl⟩,
    ?_, List.pairwise_singleton _ _⟩, List.Perm.refl _, rfl, by decide, fun _ => rfl, by decide,
    by decide, by decide⟩
  · intro y hy
    cases hy
  · intro y hy
    cases hy
  · intro y hy
    cases hy
    rfl
  · intro x hx
    obtain rfl := List.mem_singleton.mp hx
    exact ⟨by decide, by decide⟩

/-- `Lookup` searches a range that contains the one asked for, and gives its leftmost node; the
length is that of the free range before it, or of the whole range if nothing is cached there. -/
theorem Lookup_leftmost (hi : Inv T s ids) {Offset Length : Nat} (hOffset : Offset < 2 ^ 64)
    (hLength : Length < 2 ^ 32) :
    ∃ Node used stop, Lookup s Offset Length = some (Node, used) ∧
      min (Offset + Length) (2 ^ 64 - 1) ≤ stop ∧ stop ≤ Offset + max Length 0x80 ∧
      (Node = none → min (Offset + used) (2 ^ 64 - 1) = stop ∧
        ∀ x ∈ ids, (s.entry x).stop ≤ Offset ∨ stop ≤ (s.entry x).Offset) ∧
      ∀ x, Node = some x → x ∈ ids ∧ (s.entry x).Offset < stop ∧ Offset < (s.entry x).stop ∧
        (Offset < (s.entry x).Offset → Offset + used = (s.entry x).Offset) ∧
        ∀ y ∈ ids, y ≠ x → (s.entry y).stop ≤ Offset ∨ (s.entry x).stop ≤ (s.entry y).Offset := by
  obtain ⟨used, hrun, hnone, hsome⟩ := Lookup_spec hi.holds hi.ledger.length_le Offset Length
  obtain ⟨hlt, hle, hmin, -, hcut, -, hmax⟩ := searchRange_spec (s := s) hOffset hLength
  generalize searchRange s Offset Length = range at *
  obtain ⟨L, Sum⟩ := range
  dsimp only at *
  refine ⟨_, used, Sum, hrun, hmin, by omega, ?_, ?_⟩
  · intro hfind
    rw [hnone hfind]
    refine ⟨hcut, ?_⟩
    intro x hx
    have hno := List.find?_eq_none.mp hfind x hx
    rw [Bool.not_eq_true, meets_eq_false] at hno
    exact hno.symm
  · intro x hfind
    obtain ⟨hx, hstart, hstop, hothers⟩ := find_meets hi.holds hfind
    refine ⟨hx, hstart, hstop, ?_, ?_⟩
    · intro hbefore
      rw [hsome x hfind hbefore, ulong_of_lt (by omega)]
      omega
    · intro y hy hne
      have hpos := (hi.holds.valid x hx).offset_lt
      have hposy := (hi.holds.valid y hy).offset_lt
      have hapart := hi.holds.before_or hy hx hne
      have := hothers y hy
      unfold Before at hapart
      omega

theorem Lookup_leftmost_small :
    ∃ Node used stop, Lookup smallCache 0xff0 0x20 = some (Node, used) ∧
      min (0xff0 + 0x20) (2 ^ 64 - 1) ≤ stop ∧ stop ≤ 0xff0 + max 0x20 0x80 ∧
      (Node = none → min (0xff0 + used) (2 ^ 64 - 1) = stop ∧
        ∀ x ∈ [0], (smallCache.entry x).stop ≤ 0xff0 ∨ stop ≤ (smallCache.entry x).Offset) ∧
      ∀ x, Node = some x → x ∈ [0] ∧ (smallCache.entry x).Offset < stop ∧
        0xff0 < (smallCache.entry x).stop ∧
        (0xff0 < (smallCache.entry x).Offset → 0xff0 + used = (smallCache.entry x).Offset) ∧
        ∀ y ∈ [0], y ≠ x → (smallCache.entry y).stop ≤ 0xff0 ∨
          (smallCache.entry x).stop ≤ (smallCache.entry y).Offset :=
  Lookup_leftmost smallCache_inv (by decide) (by decide)

/-! ### Changing the cache -/

/-- `Remove` leaves nothing of the range in the cache, and takes out only nodes that meet it or,
after some misses, its first 0x80 bytes. -/
theorem Remove_exact (hi : Inv T s ids) {BaseAddress TransferCount : Nat}
    (hsmall : TransferCount < 2 ^ 32) (hstop : BaseAddress + TransferCount < 2 ^ 64) :
    ∃ s' ids', Remove T s BaseAddress TransferCount = some s' ∧ Inv T s' ids' ∧
      (contents s' ids').Sublist (contents s ids) ∧
      (∀ c ∈ contents s' ids', c.stop ≤ BaseAddress ∨ BaseAddress + TransferCount ≤ c.Offset) ∧
      ∀ c ∈ contents s ids, c.stop ≤ BaseAddress ∨
        BaseAddress + max TransferCount 0x80 ≤ c.Offset → c ∈ contents s' ids' := by
  obtain ⟨s', hrun, hi', hentry⟩ := Remove_spec hi BaseAddress TransferCount
  obtain ⟨-, hle, hmin, -, -, -, hmax⟩ :=
    searchRange_spec (s := s) (by omega : BaseAddress < 2 ^ 64) hsmall
  refine ⟨s', _, hrun, hi', ?_, ?_, ?_⟩
  · unfold contents
    rw [hentry]
    exact List.filter_sublist.map _
  · intro c hc
    obtain ⟨x, hx, rfl⟩ := List.mem_map.mp hc
    have hvalid := hi'.holds.valid x hx
    have := hvalid.offset_lt
    have := hvalid.stop_lt
    rw [List.mem_filter, Bool.not_eq_true', meets_eq_false] at hx
    rw [hentry] at *
    omega
  · intro c hc hout
    obtain ⟨x, hx, rfl⟩ := List.mem_map.mp hc
    refine List.mem_map.mpr ⟨x, ?_, by rw [hentry]⟩
    rw [List.mem_filter, Bool.not_eq_true', meets_eq_false]
    exact ⟨hx, by omega⟩

theorem Remove_exact_small :
    ∃ s' ids', Remove plainTarget smallCache 0x1002 4 = some s' ∧ Inv plainTarget s' ids' ∧
      (contents s' ids').Sublist (contents smallCache [0]) ∧
      (∀ c ∈ contents s' ids', c.stop ≤ 0x1002 ∨ 0x1002 + 4 ≤ c.Offset) ∧
      ∀ c ∈ contents smallCache [0], c.stop ≤ 0x1002 ∨ 0x1002 + max 4 0x80 ≤ c.Offset →
        c ∈ contents s' ids' :=
  Remove_exact smallCache_inv (by decide) (by decide)

/-- `PurgeType`, which takes the tree apart and builds another one from its nodes, keeps exactly
the data that are not purged, in their order. -/
theorem PurgeType_keeps (hi : Inv T s ids) (type : Nat) :
    ∃ s' ids', PurgeType T s type = some s' ∧ Inv T s' ids' ∧
      contents s' ids' = (contents s ids).filter fun c =>
        !(c.isError || (type == 1 && decide (c.Offset < T.m_SystemRangeStart))) := by
  obtain ⟨s', hrun, hi', hentry⟩ := PurgeType_spec hi type
  refine ⟨s', _, hrun, hi', ?_⟩
  unfold contents
  rw [hentry, List.filter_map]
  rfl

theorem PurgeType_keeps_small :
    ∃ s' ids', PurgeType plainTarget smallCache 1 = some s' ∧ Inv plainTarget s' ids' ∧
      contents s' ids' = (contents smallCache [0]).filter fun c =>
        !(c.isError || (1 == 1 && decide (c.Offset < plainTarget.m_SystemRangeStart))) :=
  PurgeType_keeps smallCache_inv 1

/-- `Empty` frees every node that was still in the tree, and no node twice. -/
theorem Empty_frees (hi : Inv T s ids) (hfree : s.m_PurgeOverride = false) :
    ∃ s', Empty s = some s' ∧ s'.freed.Perm (List.range s'.allocated) ∧ s'.m_NodeCount = 0 ∧
      Treed s' [] := by
  obtain ⟨s', ids', hrun, hi', hnil, -⟩ := Empty_spec hi
  have hempty := hnil hfree
  subst hempty
  exact ⟨s', hrun, hi'.ledger, hi'.count, hi'.holds.treed⟩

theorem Empty_frees_small :
    ∃ s', Empty smallCache = some s' ∧ s'.freed.Perm (List.range s'.allocated) ∧
      s'.m_NodeCount = 0 ∧ Treed s' [] :=
  Empty_frees smallCache_inv rfl

/-! ### Reading -/

/-- In every run from an empty cache, every read gets what the target has at its time: no write,
no purge, no command and no lack of memory makes the cache give old data. -/
theorem run_reads_right (hT : Serves T) (hlast : mem (2 ^ 64 - 1) = none) {MaxSize : Nat}
    (hmax : MaxSize ≤ 2 ^ 30) (links : Links Nat) (entry : Nat → CACHE) (ops : List Op)
    (hops : AllAllowed T ⟨mem, create links entry MaxSize⟩ ops) :
    ∃ events w', run T ⟨mem, create links entry MaxSize⟩ ops = some (events, w') ∧
      ∀ e ∈ events, e.Right := by
  obtain ⟨events, w', hrun, -, hevents⟩ :=
    run_sound hT ops (create_sound T links entry hmax hlast) hops
  exact ⟨events, w', hrun, hevents⟩

/-- After every run the tree has nodes of disjoint ranges in order, each node that was ever
allocated is in it or was freed, once, and `m_Size` covers what is held, exactly so if no call of
`malloc` failed. -/
theorem run_books (hT : Serves T) (hlast : mem (2 ^ 64 - 1) = none) {MaxSize : Nat}
    (hmax : MaxSize ≤ 2 ^ 30) (links : Links Nat) (entry : Nat → CACHE) (ops : List Op)
    (hops : AllAllowed T ⟨mem, create links entry MaxSize⟩ ops) :
    ∃ events w' ids, run T ⟨mem, create links entry MaxSize⟩ ops = some (events, w') ∧
      Treed w'.cache ids ∧ ids.Pairwise (Before w'.cache) ∧
      (ids ++ w'.cache.freed).Perm (List.range w'.cache.allocated) ∧
      w'.cache.m_NodeCount = ids.length ∧ cost T w'.cache ids ≤ w'.cache.m_Size ∧
      ((∀ call, T.malloc call = true) → w'.cache.m_Size = cost T w'.cache ids) := by
  obtain ⟨events, w', hrun, ⟨-, ids, hi, -⟩, -⟩ :=
    run_sound hT ops (create_sound T links entry hmax hlast) hops
  exact ⟨events, w', ids, hrun, hi.holds.treed, hi.holds.apart, hi.ledger, hi.count,
    hi.sized.covers, fun hall => hi.sized.tight fun call _ => hall call⟩

/-- A read, a write, another read, a purge and the end. -/
def smallRun : List Op :=
  [.read 0x1002 4, .write 0x1003 [7], .read 0x1000 0x40, .purge 1, .command .flushall]

theorem smallRun_allowed (w : World) : AllAllowed plainTarget w smallRun :=
  ⟨⟨by decide, by decide⟩, fun _ _ _ => ⟨⟨by decide, by decide⟩, fun _ _ _ =>
    ⟨⟨by decide, by decide⟩, fun _ _ _ => ⟨trivial, fun _ _ _ => ⟨trivial, fun _ _ _ =>
      trivial⟩⟩⟩⟩⟩

theorem run_reads_right_small :
    ∃ events w', run plainTarget ⟨smallMemory, create ⟨fun _ => 0, fun _ _ => none⟩
        (fun _ => ⟨0, .data [] false⟩) 0x400⟩ smallRun = some (events, w') ∧
      ∀ e ∈ events, e.Right :=
  run_reads_right plainTarget_serves (by decide) (by decide) _ _ smallRun (smallRun_allowed _)

theorem run_books_small :
    ∃ events w' ids, run plainTarget ⟨smallMemory, create ⟨fun _ => 0, fun _ _ => none⟩
        (fun _ => ⟨0, .data [] false⟩) 0x400⟩ smallRun = some (events, w') ∧
      Treed w'.cache ids ∧ ids.Pairwise (Before w'.cache) ∧
      (ids ++ w'.cache.freed).Perm (List.range w'.cache.allocated) ∧
      w'.cache.m_NodeCount = ids.length ∧ cost plainTarget w'.cache ids ≤ w'.cache.m_Size ∧
      ((∀ call, plainTarget.malloc call = true) →
        w'.cache.m_Size = cost plainTarget w'.cache ids) :=
  run_books plainTarget_serves (by decide) (by decide) _ _ smallRun (smallRun_allowed _)

end SdkTools.MemoryCache
