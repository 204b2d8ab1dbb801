import SdkTools.Registry.KeynodeSteps

/-!
# Runs of calls on the keynodes of a new hive

The callers free the keynodes that were handed out to them, and write to them
in between.
-/

namespace SdkTools.Registry

set_option autoImplicit false

open SdkTools.Lib

/-- The table and the keynodes that were handed out and not freed since. -/
structure Hive where
  fi : FileInfo
  used : List Nat

inductive Call where
  | alloc (env : AllocEnv)
  | free (index : Nat) (failure : Option ErrorCode)
  | write (index : Nat) (k : Keynode)

inductive Step : Hive → Call → Hive → Prop where
  | alloc {h : Hive} {env : AllocEnv} {fi : FileInfo} {i : Nat} :
      CanGrow h.fi env → rgAllocKeynode h.fi env = (fi, .ok i) →
      Step h (.alloc env) ⟨fi, i :: h.used⟩
  | allocFails {h : Hive} {env : AllocEnv} {fi : FileInfo} {e : ErrorCode} :
      CanGrow h.fi env → rgAllocKeynode h.fi env = (fi, .error e) →
      Step h (.alloc env) ⟨fi, h.used⟩
  | free {h : Hive} {i : Nat} {failure : Option ErrorCode} {fi : FileInfo} :
      i ∈ h.used → rgFreeKeynode h.fi i failure = (fi, none) →
      Step h (.free i failure) ⟨fi, h.used.erase i⟩
  | freeFails {h : Hive} {i : Nat} {failure : Option ErrorCode} {fi : FileInfo} {e : ErrorCode} :
      i ∈ h.used → rgFreeKeynode h.fi i failure = (fi, some e) →
      Step h (.free i failure) ⟨fi, h.used⟩
  | write {h : Hive} {i : Nat} {k : Keynode} :
      i ∈ h.used → k.inUse = true → Step h (.write i k) ⟨h.fi.setKeynode i k, h.used⟩

/-- What holds of the table between any two calls. -/
structure Sound (h : Hive) : Prop where
  nodup : h.used.Nodup
  fresh : ∀ env fi i, CanGrow h.fi env → rgAllocKeynode h.fi env = (fi, .ok i) → i ∉ h.used
  inside : ∀ i ∈ h.used, slotStart h.fi.version20 i + slotSize h.fi.version20 ≤ h.fi.curTotalKnSize
  in_page : ∀ i ∈ h.used, h.fi.version20 = true ∨ i ≠ 146 →
    slotStart h.fi.version20 i / pageSize =
      (slotStart h.fi.version20 i + slotSize h.fi.version20 - 1) / pageSize
  disjoint : ∀ i ∈ h.used, ∀ j ∈ h.used, i < j →
    slotStart h.fi.version20 i + slotSize h.fi.version20 ≤ slotStart h.fi.version20 j
  free : ∃ chain, Linked h.fi.keynodes h.fi.firstFreeIndex chain ∧ chain.Nodup ∧
    ∀ i ∈ chain, i ∉ h.used ∧ (h.fi.keynodes i).inUse = false ∧
      slotSize h.fi.version20 ≤ (h.fi.keynodes i).freeRecordSize
  alloc_fails : ∀ env fi e, CanGrow h.fi env → rgAllocKeynode h.fi env = (fi, .error e) →
    fi = h.fi
  free_fails : ∀ i failure fi e, rgFreeKeynode h.fi i failure = (fi, some e) → fi = h.fi
  alloc_succeeds : ∀ lockNext, ∃ i, (rgAllocKeynode h.fi ⟨true, none, lockNext⟩).2 = .ok i

theorem rgFreeKeynode_error {fi fi' : FileInfo} {i : Nat} {failure : Option ErrorCode}
    {e : ErrorCode} (h : rgFreeKeynode fi i failure = (fi', some e)) : fi' = fi := by
  rcases rgFreeKeynode_cases h with ⟨-, h⟩ | ⟨h, -⟩
  · exact h
  · cases h

theorem Inv.chain_nodup {fi : FileInfo} {used chain : List Nat} (h : Inv fi used chain) :
    chain.Nodup := by
  refine h.free_disjoint.imp_of_mem fun {i j} hi hj hij heq => ?_
  have hpos := h.free_nodes i hi
  rw [heq] at hij hpos
  omega

theorem Inv.sound {fi : FileInfo} {used chain : List Nat} (h : Inv fi used chain) :
    Sound ⟨fi, used⟩ where
  nodup := h.used_nodup
  fresh := by
    intro env fi' i hgrow hr
    obtain ⟨chain', hinv⟩ := h.alloc hgrow hr
    exact (List.nodup_cons.mp hinv.used_nodup).1
  inside := fun i hi => (h.used_valid i hi).1.inside (h.used_valid i hi).2
  in_page := fun i hi hne => (h.used_valid i hi).1.in_page (h.used_valid i hi).2 hne
  disjoint := fun i hi j hj hij =>
    (h.used_valid i hi).1.disjoint (h.used_valid j hj).1 (h.used_valid i hi).2
      (h.used_valid j hj).2 hij
  free := by
    refine ⟨chain, h.linked, h.chain_nodup, fun i hi => ⟨?_, h.free_flag i hi, ?_⟩⟩
    · exact fun hu => h.used_not_free hu hi
    · have hn := (Nat.le_div_iff_mul_le (slotSize_pos fi.version20)).mp (h.free_nodes i hi)
      simpa only [Nat.one_mul] using hn
  alloc_fails := fun _ _ _ hgrow hr => rgAllocKeynode_error hgrow hr
  free_fails := fun _ _ _ _ hr => rgFreeKeynode_error hr
  alloc_succeeds := h.alloc_succeeds

/-- The invariant of a hive, for some free list. -/
def Hive.Ok (h : Hive) : Prop := ∃ chain, Inv h.fi h.used chain

theorem Step.ok {h h' : Hive} {c : Call} (hok : h.Ok) (hs : Step h c h') : h'.Ok := by
  obtain ⟨chain, hinv⟩ := hok
  cases hs with
  | alloc hgrow hr => exact hinv.alloc hgrow hr
  | allocFails hgrow hr =>
    rw [rgAllocKeynode_error hgrow hr]
    exact ⟨chain, hinv⟩
  | free hi hr =>
    rcases rgFreeKeynode_cases hr with ⟨h, -⟩ | ⟨-, h⟩
    · cases h
    · rw [h]
      exact ⟨_, hinv.free hi⟩
  | freeFails hi hr =>
    rw [rgFreeKeynode_error hr]
    exact ⟨chain, hinv⟩
  | write hi hk => exact ⟨chain, hinv.overwrite _ (fun _ => hk) (hinv.used_not_free hi)⟩

theorem newKeynodeInfo_firstFree (version20 : Bool) (keynodes : Nat → Keynode) :
    (newKeynodeInfo version20 keynodes).firstFreeIndex = REG_NULL := by
  cases version20 <;> rfl

theorem newKeynodeInfo_size (version20 : Bool) (keynodes : Nat → Keynode) :
    (newKeynodeInfo version20 keynodes).curTotalKnSize = if version20 then 0 else 32 := rfl

theorem newKeynodeInfo_table (version20 : Bool) (keynodes : Nat → Keynode) :
    TableSize version20 (newKeynodeInfo version20 keynodes).curTotalKnSize := by
  cases version20 with
  | true => exact ⟨Nat.two_pow_pos 32, rfl⟩
  | false => exact ⟨(by decide : sizeofKeynodeHeader < 2 ^ 32), Or.inl rfl⟩

theorem newKeynodeInfo_inv (version20 : Bool) (keynodes : Nat → Keynode) :
    Inv (newKeynodeInfo version20 keynodes) [] [] := by
  have hvalid : ∀ i, ¬ ValidSlot version20 (newKeynodeInfo version20 keynodes).curTotalKnSize i := by
    intro i hi
    have hi := hi.2
    cases version20 with
    | true =>
      simp only [newKeynodeInfo, if_true] at hi
      omega
    | false =>
      simp only [newKeynodeInfo, Bool.false_eq_true, if_false, sizeofKeynodeHeader] at hi
      split at hi <;> omega
  constructor
  · exact newKeynodeInfo_table version20 keynodes
  · rw [newKeynodeInfo_firstFree]
    exact ⟨rfl, rfl⟩
  · exact List.nodup_nil
  · exact fun _ hi => absurd hi List.not_mem_nil
  · exact fun _ hi => absurd hi List.not_mem_nil
  · exact fun _ hi => absurd hi List.not_mem_nil
  · exact fun _ hi => absurd hi List.not_mem_nil
  · exact fun _ hi => absurd hi List.not_mem_nil
  · exact fun _ hi => absurd hi List.not_mem_nil
  · exact List.Pairwise.nil
  · exact fun i hi => absurd hi (hvalid i)

/-- A new hive is created only if its first keynode could be locked. -/
theorem newKeynodeInfo_canGrow {version20 : Bool} {keynodes : Nat → Keynode} {env : AllocEnv}
    {fi : FileInfo} {i : Nat} (h : rgAllocKeynode (newKeynodeInfo version20 keynodes) env =
      (fi, .ok i)) : CanGrow (newKeynodeInfo version20 keynodes) env := by
  intro hnull
  constructor
  · cases version20 with
    | true =>
      have hsize : (newKeynodeInfo true keynodes).curTotalKnSize = 4096 * 0 :=
        newKeynodeInfo_size true keynodes
      rw [extension_compact rfl hsize (by omega)]
      exact Nat.zero_lt_succ _
    | false =>
      rw [extension_first rfl (newKeynodeInfo_size false keynodes)]
      exact Nat.one_lt_succ_succ _
  · cases hlock : env.lockFree with
    | none => rfl
    | some e =>
      simp only [rgAllocKeynode, if_pos hnull, hlock] at h
      split at h
      · cases (Prod.mk.inj h).2
      · split at h
        · cases (Prod.mk.inj h).2
        · rename_i hok
          simp only [rgLockKeynode] at hok
          split at hok <;> cases hok

theorem Inv.header {fi : FileInfo} {used chain : List Nat} (h : Inv fi used chain)
    (rootIndex fileKnSize : Nat) : Inv { fi with rootIndex, fileKnSize } used chain :=
  ⟨h.table, h.linked, h.used_nodup, h.used_valid, h.used_flag, h.free_flag, h.free_nodes,
    h.free_valid, h.free_used, h.free_disjoint, h.blocks⟩

theorem rgCreateFileInfoNew_ok {version20 : Bool} {keynodes : Nat → Keynode} {env : AllocEnv}
    {fi : FileInfo} (h : rgCreateFileInfoNew version20 keynodes env = .ok fi) :
    Hive.Ok ⟨fi, [fi.rootIndex]⟩ := by
  unfold rgCreateFileInfoNew at h
  split at h
  · cases h
  · rename_i fi' i hr
    obtain ⟨chain, hinv⟩ :=
      (newKeynodeInfo_inv version20 keynodes).alloc (newKeynodeInfo_canGrow hr) hr
    rw [← Except.ok.inj h]
    exact ⟨chain, hinv.header i fi'.curTotalKnSize⟩

/-- Whatever is allocated, freed and written on a new hive, keynodes in use stay
apart from each other and from the free list. -/
theorem keynode_runs_sound {version20 : Bool} {keynodes : Nat → Keynode} {env : AllocEnv}
    {fi : FileInfo} {calls : List Call} {h : Hive}
    (hnew : rgCreateFileInfoNew version20 keynodes env = .ok fi)
    (hrun : Run Step ⟨fi, [fi.rootIndex]⟩ calls h) : Sound h := by
  obtain ⟨chain, hinv⟩ := hrun.invariant (rgCreateFileInfoNew_ok hnew)
    fun _ _ _ hok hstep => hstep.ok hok
  exact hinv.sound

instance (fi : FileInfo) (env : AllocEnv) : Decidable (CanGrow fi env) :=
  inferInstanceAs (Decidable (_ → _))

/-- The keynodes of a hive after `n` allocations in a row in which nothing fails. -/
def allocs (fi : FileInfo) : Nat → Hive
  | 0 => ⟨fi, [fi.rootIndex]⟩
  | n + 1 =>
    match rgAllocKeynode (allocs fi n).fi ⟨true, none, none⟩ with
    | (fi', .error _) => ⟨fi', (allocs fi n).used⟩
    | (fi', .ok i) => ⟨fi', i :: (allocs fi n).used⟩

theorem allocs_run {fi : FileInfo} (n : Nat)
    (h : ∀ m < n, CanGrow (allocs fi m).fi ⟨true, none, none⟩) :
    ∃ calls, Run Step ⟨fi, [fi.rootIndex]⟩ calls (allocs fi n) := by
  induction n with
  | zero => exact ⟨[], .nil⟩
  | succ n ih =>
    obtain ⟨calls, hrun⟩ := ih fun m hm => h m (Nat.lt_succ_of_lt hm)
    have hgrow := h n (Nat.lt_succ_self n)
    refine ⟨_, hrun.snoc (e := .alloc ⟨true, none, none⟩) ?_⟩
    simp only [allocs]
    split
    · rename_i hr
      exact .allocFails hgrow hr
    · rename_i hr
      exact .alloc hgrow hr

/-- The hive of the Win95 format that starts out with its root keynode. -/
def newWin95Hive : FileInfo :=
  { (rgAllocKeynode (newKeynodeInfo false fun _ => ⟨0, false, 0⟩) ⟨true, none, none⟩).1 with
    rootIndex := 1, fileKnSize := 4064 }

/-- With 146 keynodes in use, one of them lies across the first two pages. -/
theorem win95_slot_146_straddles :
    ∃ (keynodes : Nat → Keynode) (env : AllocEnv) (fi : FileInfo) (calls : List Call) (h : Hive),
      rgCreateFileInfoNew false keynodes env = .ok fi ∧
      Run Step ⟨fi, [fi.rootIndex]⟩ calls h ∧ 146 ∈ h.used ∧
      slotStart h.fi.version20 146 / pageSize ≠
        (slotStart h.fi.version20 146 + slotSize h.fi.version20 - 1) / pageSize := by
  have hgrow : ∀ m < 145, CanGrow (allocs newWin95Hive m).fi ⟨true, none, none⟩ := by
    decide +kernel
  obtain ⟨calls, hrun⟩ := allocs_run 145 hgrow
  refine ⟨fun _ => ⟨0, false, 0⟩, ⟨true, none, none⟩, newWin95Hive, calls, _, rfl, hrun, ?_, ?_⟩
  · decide +kernel
  · decide +kernel

theorem keynode_runs_sound_two :
    Sound (allocs newWin95Hive 1) := by
  have hgrow : ∀ m < 1, CanGrow (allocs newWin95Hive m).fi ⟨true, none, none⟩ := by
    decide +kernel
  obtain ⟨calls, hrun⟩ := allocs_run 1 hgrow
  have hnew : rgCreateFileInfoNew false (fun _ => ⟨0, false, 0⟩) ⟨true, none, none⟩ =
      .ok newWin95Hive := rfl
  exact keynode_runs_sound hnew hrun

end SdkTools.Registry
