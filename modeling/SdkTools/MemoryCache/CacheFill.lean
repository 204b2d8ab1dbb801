import SdkTools.MemoryCache.CachePurge

/-!
# Filling the cache

What a coherent cache has agrees with the target's memory. `Read` puts the bytes that it gets into
new nodes, or at the end of a node, and merges neighbors.
-/

namespace SdkTools.MemoryCache

open Lib Lib.BinTree Lib.Context Lib.Links

set_option autoImplicit false

/-! ### The target's bytes -/

/-- The memory has these bytes at the address. -/
def Shows (mem : Memory) : Nat → List UCHAR → Prop
  | _, [] => True
  | a, b :: bytes => mem a = some b ∧ Shows mem (a + 1) bytes

variable {mem : Memory}

theorem shows_append {a : Nat} {xs ys : List UCHAR} :
    Shows mem a (xs ++ ys) ↔ Shows mem a xs ∧ Shows mem (a + xs.length) ys := by
  induction xs generalizing a with
  | nil => simp [Shows]
  | cons x xs ih =>
    rw [List.cons_append, Shows, Shows, ih, List.length_cons, and_assoc,
      Nat.add_right_comm, Nat.add_assoc a]

theorem Shows.take {a : Nat} {bytes : List UCHAR} (h : Shows mem a bytes) (n : Nat) :
    Shows mem a (bytes.take n) := by
  rw [← List.take_append_drop n bytes] at h
  exact (shows_append.mp h).1

theorem Shows.drop {a : Nat} {bytes : List UCHAR} (h : Shows mem a bytes) {n : Nat}
    (hn : n ≤ bytes.length) : Shows mem (a + n) (bytes.drop n) := by
  rw [← List.take_append_drop n bytes] at h
  have hdrop := (shows_append.mp h).2
  rwa [List.length_take_of_le hn] at hdrop

theorem Shows.ne_none {a : Nat} {bytes : List UCHAR} (h : Shows mem a bytes) {i : Nat}
    (hi : i < bytes.length) : mem (a + i) ≠ none := by
  induction bytes generalizing a i with
  | nil => cases hi
  | cons b bytes ih =>
    cases i with
    | zero =>
      rw [Nat.add_zero, h.1]
      exact Option.some_ne_none b
    | succ i =>
      have hnext := ih h.2 (Nat.lt_of_succ_lt_succ hi)
      rwa [Nat.add_assoc, Nat.add_comm 1] at hnext

/-- These bytes are all that can be read at the address, up to a length. -/
structure Longest (mem : Memory) (a n : Nat) (bytes : List UCHAR) : Prop where
  shows : Shows mem a bytes
  length_le : bytes.length ≤ n
  stops : bytes.length < n → mem (a + bytes.length) = none

/-- An answer of `ReadUncached`: the user stopped it, nothing can be read, or the largest valid
prefix. -/
inductive Answers (mem : Memory) (a n : Nat) : HRESULT × List UCHAR → Prop
  | interrupted : Answers mem a n (CONTROL_C_EXIT, [])
  | failed {Status : HRESULT} : Status ≠ S_OK → Status ≠ CONTROL_C_EXIT → mem a = none →
      Answers mem a n (Status, [])
  | read {bytes : List UCHAR} : bytes ≠ [] → Longest mem a n bytes → Answers mem a n (S_OK, bytes)

/-- The target answers so while its memory is this one, and the last byte of the address space
cannot be read. -/
structure Reads (T : Target) (mem : Memory) : Prop where
  answers : ∀ call a n, 0 < n → Answers mem a n (T.ReadUncached mem call a n)
  last : mem (2 ^ 64 - 1) = none

theorem stop_lt {a : Nat} {bytes : List UCHAR} (hlast : mem (2 ^ 64 - 1) = none)
    (h : Shows mem a bytes) (hle : a + bytes.length ≤ 2 ^ 64) (hne : bytes ≠ []) :
    a + bytes.length < 2 ^ 64 := by
  have hpos := List.length_pos_iff.mpr hne
  by_contra hnot
  apply h.ne_none (i := bytes.length - 1) (by omega)
  have htop : a + (bytes.length - 1) = 2 ^ 64 - 1 := by omega
  rw [htop]
  exact hlast

/-- What is cached agrees with the memory. -/
def CACHE.Agrees (mem : Memory) (c : CACHE) : Prop :=
  Shows mem c.Offset c.Data ∧ ∀ Status, c.u = .error Status → Status ≠ S_OK ∧ mem c.Offset = none

def Coherent (mem : Memory) (s : State) (ids : List Nat) : Prop :=
  ∀ x ∈ ids, (s.entry x).Agrees mem

theorem Coherent.congr {s s' : State} {ids : List Nat} (hc : Coherent mem s ids)
    (hentry : s'.entry = s.entry) : Coherent mem s' ids := by
  unfold Coherent
  rw [hentry]
  exact hc

variable {T : Target} {s s' : State} {ids : List Nat} {Node : Nat} {c : CACHE}

/-! ### Free ranges -/

/-- Nothing is cached in the range. -/
structure Gap (s : State) (ids : List Nat) (Base Length : Nat) : Prop where
  pos : 0 < Length
  small : Length ≤ 2 ^ 30
  inside : Base + Length ≤ 2 ^ 64
  free : ∀ x ∈ ids, (s.entry x).stop ≤ Base ∨ Base + Length ≤ (s.entry x).Offset

theorem Gap.congr {Base Length : Nat} (hg : Gap s ids Base Length) (hentry : s'.entry = s.entry) :
    Gap s' ids Base Length := by
  refine ⟨hg.pos, hg.small, hg.inside, ?_⟩
  rw [hentry]
  exact hg.free

/-- The node has the byte at the address. -/
def Covers (s : State) (Base x : Nat) : Prop :=
  (s.entry x).Offset ≤ Base ∧ Base < (s.entry x).stop

/-- A node with the byte, or the next node behind a free range, or a free range. -/
inductive Leading (s : State) (ids : List Nat) (Base NextLength : Nat) : Option Nat → Prop
  | covers {x : Nat} : x ∈ ids → Covers s Base x → Leading s ids Base NextLength (some x)
  | behind {x : Nat} : x ∈ ids → Base < (s.entry x).Offset →
      Gap s ids Base ((s.entry x).Offset - Base) → Leading s ids Base NextLength (some x)
  | missing : Gap s ids Base NextLength → Leading s ids Base NextLength none

/-- The nodes before the first one that meets a range end before the range starts. -/
theorem find_meets {Offset Sum x : Nat} (hs : Holds s ids)
    (hfind : ids.find? (meets s Offset Sum) = some x) :
    x ∈ ids ∧ (s.entry x).Offset < Sum ∧ Offset < (s.entry x).stop ∧
      ∀ y ∈ ids, (s.entry y).stop ≤ Offset ∨ (s.entry x).Offset ≤ (s.entry y).Offset := by
  obtain ⟨hmeets, before, after, rfl, hbefore⟩ := List.find?_eq_some_iff_append.mp hfind
  rw [meets_iff] at hmeets
  obtain ⟨-, hapa, hacross⟩ := List.pairwise_append.mp hs.apart
  obtain ⟨hright, -⟩ := List.pairwise_cons.mp hapa
  refine ⟨by simp, hmeets.1, hmeets.2, ?_⟩
  intro y hy
  rcases List.mem_append.mp hy with hy | hy
  · have hno := hbefore y hy
    rw [Bool.not_eq_true', meets_eq_false] at hno
    have hxy := hacross y hy x List.mem_cons_self
    have := (hs.valid y (List.mem_append_left _ hy)).offset_lt
    unfold Before at hxy
    omega
  · rcases List.mem_cons.mp hy with rfl | hy
    · exact Or.inr (Nat.le_refl _)
    · have hxy := hright y hy
      have := (hs.valid x (by simp)).offset_lt
      unfold Before at hxy
      omega

theorem Lookup_leading (hi : Inv T s ids) {Base Count : Nat} (hpos : 0 < Count)
    (hsmall : Count ≤ 2 ^ 30) (hbase : Base < 2 ^ 64 - 1) :
    ∃ Node NextLength, Lookup s Base Count = some (Node, NextLength) ∧
      Leading s ids Base NextLength Node := by
  obtain ⟨used, hrun, hnone, -⟩ := Lookup_spec hi.holds hi.ledger.length_le Base Count
  obtain ⟨hlt, hle, -, hin, hmin, hgt, hmax⟩ :=
    searchRange_spec (s := s) (by omega : Base < 2 ^ 64) (by omega : Count < 2 ^ 32)
  generalize searchRange s Base Count = range at *
  obtain ⟨L, Sum⟩ := range
  dsimp only at *
  have hL := hgt hpos
  refine ⟨_, used, hrun, ?_⟩
  cases hfind : ids.find? (meets s Base Sum) with
  | none =>
    rw [hnone hfind]
    refine Leading.missing ⟨hL, by omega, hin, ?_⟩
    intro x hx
    have hno := List.find?_eq_none.mp hfind x hx
    rw [Bool.not_eq_true, meets_eq_false] at hno
    have hvalid := hi.holds.valid x hx
    have := hvalid.offset_lt
    have := hvalid.stop_lt
    omega
  | some x =>
    obtain ⟨hx, hstart, hstop, hothers⟩ := find_meets hi.holds hfind
    by_cases hcovers : (s.entry x).Offset ≤ Base
    · exact Leading.covers hx ⟨hcovers, hstop⟩
    · refine Leading.behind hx (by omega) ⟨by omega, by omega, by omega, ?_⟩
      intro y hy
      have := hothers y hy
      omega

/-! ### Nodes that change in place -/

/-- A node gets more data, up to the next node. -/
theorem Holds.replace (hvalid : ∀ x ∈ ids, (s.entry x).Valid) (hapart : ids.Pairwise (Before s))
    (hNode : Node ∈ ids) (htree : Treed s' ids)
    (hentry : s'.entry = (s.setEntry Node c).entry) (hOffset : c.Offset = (s.entry Node).Offset)
    (hc : c.Valid)
    (hright : ∀ y ∈ ids, y ≠ Node → Before s Node y → c.stop ≤ (s.entry y).Offset) :
    Holds s' ids := by
  refine ⟨htree, ?_, ?_⟩
  · intro x hx
    rw [hentry]
    by_cases hxn : x = Node
    · rw [hxn, entry_setEntry_self]
      exact hc
    · rw [entry_setEntry_of_ne hxn]
      exact hvalid x hx
  · apply hapart.imp_of_mem
    intro x y hx hy hxy
    have hxpos := (hvalid x hx).offset_lt
    unfold Before
    rw [hentry]
    by_cases hyn : y = Node
    · by_cases hxn : x = Node
      · subst hyn hxn
        unfold Before at hxy
        omega
      · rw [hyn, entry_setEntry_self, entry_setEntry_of_ne hxn, hOffset, ← hyn]
        exact hxy
    · rw [entry_setEntry_of_ne hyn]
      by_cases hxn : x = Node
      · rw [hxn, entry_setEntry_self]
        exact hright y hy hyn (hxn ▸ hxy)
      · rw [entry_setEntry_of_ne hxn]
        exact hxy

theorem cost_replace (T : Target) (hNode : Node ∈ ids) (hnodup : ids.Nodup)
    (hentry : s'.entry = (s.setEntry Node c).entry) :
    cost T s' ids + (s.entry Node).cost T = cost T s ids + c.cost T := by
  have hout : Node ∉ ids.erase Node := hnodup.not_mem_erase
  rw [← cost_erase T s hNode, ← cost_erase T s' hNode, hentry, entry_setEntry_self,
    cost_congr T hentry, cost_setEntry T hout]
  omega

theorem Coherent.replace (hc : Coherent mem s ids) (hagrees : c.Agrees mem)
    (hentry : s'.entry = (s.setEntry Node c).entry) : Coherent mem s' ids := by
  intro x hx
  rw [hentry]
  by_cases hxn : x = Node
  · rw [hxn, entry_setEntry_self]
    exact hagrees
  · rw [entry_setEntry_of_ne hxn]
    exact hc x hx

/-- A node of the cache is extended in place. -/
theorem Inv.replace (hi : Inv T s ids) (hNode : Node ∈ ids)
    (hOffset : c.Offset = (s.entry Node).Offset) (hc : c.Valid)
    (hright : ∀ y ∈ ids, y ≠ Node → Before s Node y → c.stop ≤ (s.entry y).Offset)
    (hlinks : s'.links = s.links) (hroot : s'.m_Root = s.m_Root)
    (hentry : s'.entry = (s.setEntry Node c).entry) (hcount : s'.m_NodeCount = s.m_NodeCount)
    (hl : Ledger s' ids) {total : Nat} (hsized : Sized T s' total)
    (htotal : total + (s.entry Node).cost T = cost T s ids + c.cost T) : Inv T s' ids where
  holds := Holds.replace hi.holds.valid hi.holds.apart hNode (hi.holds.treed.congr hlinks hroot)
    hentry hOffset hc hright
  ledger := hl
  count := hcount.trans hi.count
  sized := by
    have hcost := cost_replace T hNode hi.holds.nodup hentry
    have heq : cost T s' ids = total := by omega
    rwa [heq]

theorem length_le_of_mem (hNode : Node ∈ ids) (hdata : (s.entry Node).isError = false) :
    (s.entry Node).Length ≤ cost T s ids := by
  rw [← cost_erase T s hNode, CACHE.cost, if_neg (by simp [hdata])]
  omega

end SdkTools.MemoryCache
