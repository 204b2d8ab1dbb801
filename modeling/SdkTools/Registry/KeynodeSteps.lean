import SdkTools.Registry.KeynodeGrowth

/-!
# One call on the keynode table

Each call keeps the invariant, and one that fails leaves the table as it was.
-/

namespace SdkTools.Registry

set_option autoImplicit false

/-- The table can grow if it has to: the next index fits, and the keynode that
is put there can be locked. -/
def CanGrow (fi : FileInfo) (env : AllocEnv) : Prop :=
  isNullKeynodeIndex fi.firstFreeIndex = true →
    (extension fi).freeKeynodeIndex < 0xFFFFFF ∧ env.lockFree = none

theorem isNull_false {i : Nat} (h : i < 0xFFFFFF) : isNullKeynodeIndex i = false := by
  simp only [isNullKeynodeIndex, decide_eq_false_iff_not]
  omega

theorem lock_ok {fi : FileInfo} {i : Nat} (h : blockNumber i ≤ fi.keynodeBlockCount) :
    rgLockKeynode fi i none = .ok (blockNumber i, indexInBlock i) := by
  simp only [rgLockKeynode]
  rw [if_neg (by omega)]

theorem Inv.chain_of_null {fi : FileInfo} {used chain : List Nat} (h : Inv fi used chain)
    (hnull : isNullKeynodeIndex fi.firstFreeIndex = true) : chain = [] := by
  cases chain with
  | nil => rfl
  | cons i chain =>
    obtain ⟨rfl, hlt, -⟩ := h.linked
    rw [isNull_false hlt] at hnull
    cases hnull

theorem Inv.chain_of_free {fi : FileInfo} {used chain : List Nat} (h : Inv fi used chain)
    (hfree : ¬ isNullKeynodeIndex fi.firstFreeIndex = true) :
    ∃ chain', chain = fi.firstFreeIndex :: chain' := by
  cases chain with
  | nil => exact absurd h.linked.2 hfree
  | cons i chain =>
    obtain ⟨hi, -⟩ := h.linked
    rw [hi]
    exact ⟨chain, rfl⟩

/-- The table after an extension, with the new record on its free list. -/
def grownTable (fi : FileInfo) : FileInfo :=
  (extend fi).setKeynode (extension fi).freeKeynodeIndex
    { nextIndex := BitVec.ofNat 24 REG_NULL, inUse := false
      freeRecordSize := (extension fi).freeRecordSize }

theorem extend_count (fi : FileInfo) :
    blockNumber (extension fi).freeKeynodeIndex < (extend fi).keynodeBlockCount := by
  simp only [extend]
  split <;> omega

theorem Inv.grow {fi : FileInfo} {used chain : List Nat} (h : Inv fi used chain)
    (hf : (extension fi).freeKeynodeIndex < 0xFFFFFF) :
    Inv (grownTable fi) used [(extension fi).freeKeynodeIndex] := by
  obtain ⟨hroom, hg⟩ := extended_of_table h.table hf
  have hself : (grownTable fi).keynodes (extension fi).freeKeynodeIndex =
      { nextIndex := BitVec.ofNat 24 REG_NULL, inUse := false
        freeRecordSize := (extension fi).freeRecordSize } := setKeynode_self _ _ _
  have hnodes : nodes (grownTable fi) (extension fi).freeKeynodeIndex =
      (extension fi).freeRecordSize / slotSize fi.version20 := by
    unfold nodes
    rw [hself]
    rfl
  have hpos : 1 ≤ (extension fi).freeRecordSize / slotSize fi.version20 :=
    (Nat.le_div_iff_mul_le (slotSize_pos _)).mpr (by omega)
  have hold : ∀ u ∈ used, u < (extension fi).freeKeynodeIndex := fun u hu =>
    hg.old u (h.used_valid u hu).1
  constructor
  · exact hg.table
  · refine ⟨rfl, hf, ?_⟩
    rw [hself]
    exact ⟨rfl, rfl⟩
  · exact h.used_nodup
  · intro u hu
    exact ⟨(h.used_valid u hu).1.mono hg.le, (h.used_valid u hu).2⟩
  · intro u hu
    have hne : u ≠ (extension fi).freeKeynodeIndex := Nat.ne_of_lt (hold u hu)
    exact (congrArg Keynode.inUse (setKeynode_ne (extend fi) _ hne)).trans (h.used_flag u hu)
  · intro i hi
    rw [List.mem_singleton.mp hi, hself]
  · intro i hi
    rw [List.mem_singleton.mp hi, hnodes]
    exact hpos
  · intro i hi j hij hj
    rw [List.mem_singleton.mp hi] at hij hj
    rw [hnodes] at hj
    exact hg.new j hij hj
  · intro i hi u hu
    rw [List.mem_singleton.mp hi]
    exact Or.inl (hold u hu)
  · exact List.pairwise_singleton _ _
  · intro i hi
    exact Nat.lt_of_le_of_lt (hg.block i hi) (extend_count fi)

/-- Allocating from a table with a free record. -/
theorem rgAllocKeynode_free {fi : FileInfo} (env : AllocEnv)
    (h : ¬ isNullKeynodeIndex fi.firstFreeIndex = true) :
    rgAllocKeynode fi env =
      match rgLockKeynode fi fi.firstFreeIndex env.lockFree with
      | .error e => (fi, .error e)
      | .ok _ => (takeFree fi fi.firstFreeIndex env, .ok fi.firstFreeIndex) := by
  exact if_neg h

/-- Allocating from a table without one, if the new keynode can be locked. -/
theorem rgAllocKeynode_grow {fi : FileInfo} (env : AllocEnv)
    (h : isNullKeynodeIndex fi.firstFreeIndex = true) (hlock : env.lockFree = none) :
    rgAllocKeynode fi env =
      if blockNumber (extension fi).freeKeynodeIndex ≥ fi.keynodeBlockInfoAllocCount ∧
        env.reAlloc = false then (fi, .error .outOfMemory)
      else (takeFree (grownTable fi) (extension fi).freeKeynodeIndex env,
        .ok (extension fi).freeKeynodeIndex) := by
  have hok : rgLockKeynode (extend fi) (extension fi).freeKeynodeIndex none = .ok _ :=
    lock_ok (Nat.le_of_lt (extend_count fi))
  simp only [rgAllocKeynode, if_pos h, hlock, hok]
  rfl

/-- What a call of `RgAllocKeynode` comes to. -/
theorem rgAllocKeynode_cases {fi fi' : FileInfo} {env : AllocEnv} {r : Except ErrorCode Nat}
    (hgrow : CanGrow fi env) (h : rgAllocKeynode fi env = (fi', r)) :
    (∃ e, r = .error e ∧ fi' = fi) ∨
    (isNullKeynodeIndex fi.firstFreeIndex = false ∧ r = .ok fi.firstFreeIndex ∧
      fi' = takeFree fi fi.firstFreeIndex env) ∨
    (isNullKeynodeIndex fi.firstFreeIndex = true ∧ r = .ok (extension fi).freeKeynodeIndex ∧
      (extension fi).freeKeynodeIndex < 0xFFFFFF ∧
      fi' = takeFree (grownTable fi) (extension fi).freeKeynodeIndex env) := by
  by_cases hnull : isNullKeynodeIndex fi.firstFreeIndex = true
  · obtain ⟨hf, hlock⟩ := hgrow hnull
    rw [rgAllocKeynode_grow env hnull hlock] at h
    split at h
    · obtain ⟨rfl, rfl⟩ := Prod.mk.inj h
      exact Or.inl ⟨_, rfl, rfl⟩
    · obtain ⟨rfl, rfl⟩ := Prod.mk.inj h
      exact Or.inr (Or.inr ⟨hnull, rfl, hf, rfl⟩)
  · rw [rgAllocKeynode_free env hnull] at h
    split at h
    · obtain ⟨rfl, rfl⟩ := Prod.mk.inj h
      exact Or.inl ⟨_, rfl, rfl⟩
    · obtain ⟨rfl, rfl⟩ := Prod.mk.inj h
      exact Or.inr (Or.inl ⟨eq_false_of_ne_true hnull, rfl, rfl⟩)

theorem Inv.alloc {fi fi' : FileInfo} {used chain : List Nat} {env : AllocEnv} {i : Nat}
    (h : Inv fi used chain) (hgrow : CanGrow fi env)
    (hr : rgAllocKeynode fi env = (fi', .ok i)) : ∃ chain', Inv fi' (i :: used) chain' := by
  rcases rgAllocKeynode_cases hgrow hr with ⟨e, he, -⟩ | ⟨hfree, hi, rfl⟩ | ⟨-, hi, hf, rfl⟩
  · cases he
  · obtain ⟨chain', hchain⟩ := h.chain_of_free (by rw [hfree]; exact Bool.false_ne_true)
    rw [hchain] at h
    rw [Except.ok.inj hi]
    exact h.takeFree env
  · rw [Except.ok.inj hi]
    exact (h.grow hf).takeFree env

theorem rgAllocKeynode_error {fi fi' : FileInfo} {env : AllocEnv} {e : ErrorCode}
    (hgrow : CanGrow fi env) (hr : rgAllocKeynode fi env = (fi', .error e)) : fi' = fi := by
  rcases rgAllocKeynode_cases hgrow hr with ⟨-, -, h⟩ | ⟨-, h, -⟩ | ⟨-, h, -⟩
  · exact h
  · cases h
  · cases h

/-- An allocation during which nothing fails succeeds. -/
theorem Inv.alloc_succeeds {fi : FileInfo} {used chain : List Nat} (h : Inv fi used chain)
    (lockNext : Option ErrorCode) : ∃ i, (rgAllocKeynode fi ⟨true, none, lockNext⟩).2 = .ok i := by
  by_cases hnull : isNullKeynodeIndex fi.firstFreeIndex = true
  · rw [rgAllocKeynode_grow _ hnull rfl, if_neg (fun h => Bool.noConfusion h.2)]
    exact ⟨_, rfl⟩
  · rw [rgAllocKeynode_free _ hnull]
    obtain ⟨chain', hchain⟩ := h.chain_of_free hnull
    have hmem : fi.firstFreeIndex ∈ chain := hchain ▸ List.mem_cons_self
    have hpos := h.free_nodes _ hmem
    have hvalid := h.free_valid _ hmem _ (Nat.le_refl _) (by omega)
    have hok := lock_ok (Nat.le_of_lt (h.blocks _ hvalid))
    simp only [hok]
    exact ⟨_, rfl⟩

theorem Inv.shrink {fi : FileInfo} {used chain : List Nat} (h : Inv fi used chain) (i : Nat) :
    Inv fi (used.erase i) chain where
  table := h.table
  linked := h.linked
  used_nodup := h.used_nodup.erase i
  used_valid := fun u hu => h.used_valid u (List.mem_of_mem_erase hu)
  used_flag := fun u hu => h.used_flag u (List.mem_of_mem_erase hu)
  free_flag := h.free_flag
  free_nodes := h.free_nodes
  free_valid := h.free_valid
  free_used := fun j hj u hu => h.free_used j hj u (List.mem_of_mem_erase hu)
  free_disjoint := h.free_disjoint
  blocks := h.blocks

/-- A keynode in use is on no run of free slots. -/
theorem Inv.used_not_free {fi : FileInfo} {used chain : List Nat} {i : Nat}
    (h : Inv fi used chain) (hi : i ∈ used) : i ∉ chain := by
  intro hc
  have hpos := h.free_nodes i hc
  have hd := h.free_used i hc i hi
  omega

/-- A keynode outside of the free list and of `used` may hold anything. -/
theorem Inv.overwrite {fi : FileInfo} {used chain : List Nat} {i : Nat} (k : Keynode)
    (h : Inv fi used chain) (hu : i ∈ used → k.inUse = true) (hc : i ∉ chain) :
    Inv (fi.setKeynode i k) used chain := by
  have hkey : ∀ j ∈ chain, (fi.setKeynode i k).keynodes j = fi.keynodes j := fun j hj =>
    setKeynode_ne fi k fun heq => hc (heq ▸ hj)
  have hn : ∀ j ∈ chain, nodes (fi.setKeynode i k) j = nodes fi j := by
    intro j hj
    unfold nodes
    rw [hkey j hj]
    rfl
  constructor
  · exact h.table
  · exact Linked.congr (fun j hj => (hkey j hj).symm) h.linked
  · exact h.used_nodup
  · exact h.used_valid
  · intro j hj
    by_cases hji : j = i
    · rw [hji, setKeynode_self]
      exact hu (hji ▸ hj)
    · rw [setKeynode_ne fi k hji]
      exact h.used_flag j hj
  · intro j hj
    rw [hkey j hj]
    exact h.free_flag j hj
  · intro j hj
    rw [hn j hj]
    exact h.free_nodes j hj
  · intro j hj l hl hl'
    rw [hn j hj] at hl'
    exact h.free_valid j hj l hl hl'
  · intro j hj u hu
    rw [hn j hj]
    exact h.free_used j hj u hu
  · refine h.free_disjoint.imp_of_mem fun {j l} hj hl hjl => ?_
    rw [hn j hj, hn l hl]
    exact hjl
  · exact h.blocks

/-- The next index that a freed keynode is given leads to the free list. -/
theorem Linked.truncate {f : Nat → Keynode} {chain : List Nat} {head : Nat}
    (h : Linked f head chain) : Linked f (BitVec.ofNat 24 head).toNat chain := by
  rw [BitVec.toNat_ofNat]
  cases chain with
  | nil =>
    obtain ⟨hmod, -⟩ := h
    rw [hmod]
    exact ⟨rfl, rfl⟩
  | cons i chain =>
    obtain ⟨rfl, hlt, h⟩ := h
    exact ⟨Nat.mod_eq_of_lt (by omega), hlt, h⟩

/-- The keynode that `RgFreeKeynode` puts on the free list. -/
def freedKeynode (fi : FileInfo) : Keynode :=
  { nextIndex := BitVec.ofNat 24 fi.firstFreeIndex, inUse := false
    freeRecordSize := sizeofFileKeynode fi }

theorem rgFreeKeynode_cases {fi fi' : FileInfo} {i : Nat} {failure r : Option ErrorCode}
    (h : rgFreeKeynode fi i failure = (fi', r)) :
    (r.isSome = true ∧ fi' = fi) ∨
    (r = none ∧ fi' = { fi.setKeynode i (freedKeynode fi) with firstFreeIndex := i }) := by
  unfold rgFreeKeynode at h
  split at h
  · obtain ⟨rfl, rfl⟩ := Prod.mk.inj h
    exact Or.inl ⟨rfl, rfl⟩
  · obtain ⟨rfl, rfl⟩ := Prod.mk.inj h
    exact Or.inr ⟨rfl, rfl⟩

theorem Inv.free {fi : FileInfo} {used chain : List Nat} {i : Nat} (h : Inv fi used chain)
    (hi : i ∈ used) :
    Inv { fi.setKeynode i (freedKeynode fi) with firstFreeIndex := i } (used.erase i)
      (i :: chain) := by
  have hout : i ∉ chain := h.used_not_free hi
  have hnot : i ∉ used.erase i := List.Nodup.not_mem_erase h.used_nodup
  have hbase : Inv (fi.setKeynode i (freedKeynode fi)) (used.erase i) chain :=
    (h.shrink i).overwrite (freedKeynode fi) (fun hmem => absurd hmem hnot) hout
  have hself : (fi.setKeynode i (freedKeynode fi)).keynodes i = freedKeynode fi :=
    setKeynode_self fi i (freedKeynode fi)
  have hnodes : nodes (fi.setKeynode i (freedKeynode fi)) i = 1 := by
    unfold nodes
    rw [hself]
    exact Nat.div_self (slotSize_pos fi.version20)
  apply hbase.cons
  · refine ⟨rfl, (h.used_valid i hi).2, ?_⟩
    rw [hself]
    exact hbase.linked.truncate
  · rw [hself]
    rfl
  · omega
  · intro j hj hj'
    have hji : j = i := by omega
    rw [hji]
    exact (h.used_valid i hi).1
  · intro u hu
    have hne : u ≠ i := fun heq => hnot (heq ▸ hu)
    omega
  · intro j hj
    have hd := h.free_used j hj i hi
    have hne : j ≠ i := fun heq => hout (heq ▸ hj)
    have hn : nodes (fi.setKeynode i (freedKeynode fi)) j = nodes fi j := by
      unfold nodes
      rw [setKeynode_ne fi _ hne]
      rfl
    have hpos := h.free_nodes j hj
    omega

end SdkTools.Registry
