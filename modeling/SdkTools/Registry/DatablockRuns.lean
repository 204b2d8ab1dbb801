import SdkTools.Lib.Run
import SdkTools.Registry.DatablockSteps

/-!
# Runs of calls on the datablocks of a file

Whatever is allocated, extended, moved, written and freed, the records of every
datablock stay in order and keep what is in them.
-/

namespace SdkTools.Registry

set_option autoImplicit false

open Lib

/-- A new datablock is one free record. -/
theorem rgCreateDatablock_inv {b length : Nat} (hb : b < 0xFFFF) (hlen : length < 2 ^ 30)
    (behind : Buffer) (table : KeyRecordTable) :
    ∃ size, DbInv b (rgCreateDatablock length behind table) [.free size]
      [sizeofDatablockHeader] := by
  have hheader : sizeofDatablockHeader = 32 := rfl
  have hmod : (length + sizeofDatablockHeader) % 2 ^ 32 = length + sizeofDatablockHeader :=
    Nat.mod_eq_of_lt (by omega)
  obtain ⟨hge, haligned, hlt⟩ := roundUp_ge (show length + sizeofDatablockHeader + 4095 < 2 ^ 32 by
    omega)
  unfold rgCreateDatablock
  rw [hmod]
  generalize rgAlignBlockSize (length + sizeofDatablockHeader) = n at *
  have hfree : Holds (setFree behind sizeofDatablockHeader (n - sizeofDatablockHeader) REG_NULL)
      sizeofDatablockHeader (.free (n - sizeofDatablockHeader)) :=
    setFree_holds (by omega) (by omega)
  have htiles : Tiles (setFree behind sizeofDatablockHeader (n - sizeofDatablockHeader) REG_NULL)
      sizeofDatablockHeader [.free (n - sizeofDatablockHeader)] n := by
    refine ⟨hfree, ?_⟩
    show sizeofDatablockHeader + (n - sizeofDatablockHeader) = n
    omega
  have haddressed : Addressed b [.free (n - sizeofDatablockHeader)] :=
    ⟨List.nodup_nil, fun a ha => absurd ha List.not_mem_nil⟩
  have hsmall : n < 2 ^ 31 := by omega
  refine ⟨n - sizeofDatablockHeader, hb, hsmall, haligned, htiles, ⟨rfl, by decide, ?_⟩, List.Perm.refl _, rfl, haddressed, fun i hi => ?_, ?_⟩
  · exact setFree_next (by decide)
  · exact rebuildTable_entry htiles hsmall haddressed hi
  · refine ⟨Nat.zero_le _, fun i hi => absurd hi (Nat.not_lt_zero i), fun _ => List.not_mem_nil,
      Nat.zero_lt_succ 254, fun i _ hi => absurd hi List.not_mem_nil⟩

theorem rgCreateDatablock_first (length : Nat) (behind : Buffer) (table : KeyRecordTable) :
    (rgCreateDatablock length behind table).firstFreeIndex = 0 := rfl

/-- The records of every datablock of a file are in order. -/
def Heaps (blocks : List Datablock) : Prop :=
  ∀ b db, blocks[b]? = some db → ∃ l chain, DbInv b db l chain

/-- The key records in use keep their bytes, apart from that of `target`, if any. -/
def Kept (blocks blocks' : List Datablock) (target : Option (Nat × Nat)) : Prop :=
  ∀ b i db, blocks[b]? = some db → i < keyRecordsPerDatablock → db.table i ≠ 0 →
    some (b, i) ≠ target → ∃ db', blocks'[b]? = some db' ∧ keyRecord db' i = keyRecord db i

theorem table_ne_zero {db db' : Datablock} {i : Nat} (h : keyRecord db' i = keyRecord db i)
    (hne : db.table i ≠ 0) : db'.table i ≠ 0 := by
  intro hzero
  unfold keyRecord at h
  rw [if_pos hzero, if_neg hne] at h
  exact nomatch h

theorem Kept.refl (blocks : List Datablock) (target : Option (Nat × Nat)) :
    Kept blocks blocks target :=
  fun _ _ db hb _ _ _ => ⟨db, hb, rfl⟩

theorem Kept.trans {blocks blocks' blocks'' : List Datablock} (h : Kept blocks blocks' none)
    (h' : Kept blocks' blocks'' none) : Kept blocks blocks'' none := by
  intro b i db hb hi hne hnone
  obtain ⟨db', hb', heq⟩ := h b i db hb hi hne hnone
  obtain ⟨db'', hb'', heq'⟩ := h' b i db' hb' hi (table_ne_zero heq hne) hnone
  exact ⟨db'', hb'', heq'.trans heq⟩

theorem Heaps.set {blocks : List Datablock} {b : Nat} {db db' : Datablock} {index : Option Nat}
    (h : Heaps blocks) (hb : blocks[b]? = some db) (hpres : Preserves b db db' index) :
    Heaps (blocks.set b db') ∧ Kept blocks (blocks.set b db') (index.map fun i => (b, i)) := by
  have hlt : b < blocks.length := (List.getElem?_eq_some_iff.mp hb).1
  constructor
  · intro c dc hc
    by_cases hcb : b = c
    · subst hcb
      rw [List.getElem?_set_self hlt] at hc
      rw [← Option.some.inj hc]
      exact hpres.inv
    · rw [List.getElem?_set_ne hcb] at hc
      exact h c dc hc
  · intro c i dc hc hi hne htarget
    by_cases hcb : b = c
    · subst hcb
      rw [hb] at hc
      obtain rfl := Option.some.inj hc
      refine ⟨db', List.getElem?_set_self hlt, hpres.kept i hi hne fun heq => htarget ?_⟩
      rw [← heq]
      rfl
    · rw [List.getElem?_set_ne hcb]
      exact ⟨dc, hc, rfl⟩

theorem Heaps.append {blocks : List Datablock} {db : Datablock} {l : List Rec}
    {chain : List Nat} (h : Heaps blocks) (hdb : DbInv blocks.length db l chain) :
    Heaps (blocks ++ [db]) ∧ Kept blocks (blocks ++ [db]) none := by
  constructor
  · intro b db' hb
    rcases Nat.lt_or_ge b blocks.length with hlt | hge
    · rw [List.getElem?_append_left hlt] at hb
      exact h b db' hb
    · rw [List.getElem?_append_right hge] at hb
      have hzero : b - blocks.length = 0 := by
        have hlen := (List.getElem?_eq_some_iff.mp hb).1
        rw [List.length_singleton] at hlen
        omega
      rw [hzero] at hb
      have heq : b = blocks.length := by omega
      rw [heq, ← Option.some.inj hb]
      exact ⟨l, chain, hdb⟩
  · intro b i db' hb _ _ _
    have hlt : b < blocks.length := (List.getElem?_eq_some_iff.mp hb).1
    exact ⟨db', by rw [List.getElem?_append_left hlt]; exact hb, rfl⟩

theorem allocated_set {blocks : List Datablock} {b offset : Nat} {db db' : Datablock}
    (h : Heaps blocks) (hb : blocks[b]? = some db)
    (hpres : Preserves b db (db'.addKeyRecord b offset) none) :
    Heaps (allocated (blocks.set b db') b offset).1 ∧
      Kept blocks (allocated (blocks.set b db') b offset).1 none := by
  have hlt : b < blocks.length := (List.getElem?_eq_some_iff.mp hb).1
  simp only [allocated, List.getElem?_set_self hlt, List.set_set]
  exact h.set hb hpres

/-- A pass over the datablocks finds nothing, or a record that is then allocated. -/
theorem Heaps.allocPass {length : Nat} (env : RecordEnv) (hlo : 12 ≤ length)
    (hhi : length < 2 ^ 30) (extend : Bool) (n : Nat) : ∀ {blocks : List Datablock}, Heaps blocks →
    (∃ blocks', Registry.allocPass extend length env n blocks = (blocks', none) ∧
      Heaps blocks' ∧ Kept blocks blocks' none) ∨
    ∃ blocks' b offset, Registry.allocPass extend length env n blocks = (blocks', some (b, offset)) ∧
      Heaps (allocated blocks' b offset).1 ∧ Kept blocks (allocated blocks' b offset).1 none := by
  induction n with
  | zero =>
    intro blocks h
    exact Or.inl ⟨blocks, rfl, h, Kept.refl _ _⟩
  | succ b ih =>
    intro blocks h
    rw [Registry.allocPass]
    split
    · exact Or.inl ⟨blocks, rfl, h, Kept.refl _ _⟩
    · rename_i db hb
      split
      · exact ih h
      · rename_i hskip
        obtain ⟨l, chain, hinv⟩ := h b db hb
        have hfree : db.firstFreeIndex < keyRecordsPerDatablock := by
          apply Nat.lt_of_not_le
          intro hge
          apply hskip
          simp only [skips, decide_eq_true hge, Bool.true_or]
        rcases hinv.tryDatablock hlo hhi hfree extend (env.reAlloc b) with
          ⟨db', e, hfail, hpres⟩ | ⟨db', offset, hok, hpres⟩
        · rw [hfail]
          obtain ⟨hset, hkept⟩ := h.set hb hpres
          rcases ih hset with ⟨blocks', heq, hheaps, hkept'⟩ | ⟨blocks', c, offset, heq, hheaps, hkept'⟩
          · exact Or.inl ⟨blocks', heq, hheaps, hkept.trans hkept'⟩
          · exact Or.inr ⟨blocks', c, offset, heq, hheaps, hkept.trans hkept'⟩
        · rw [hok]
          obtain ⟨hheaps, hkept⟩ := allocated_set h hb hpres
          exact Or.inr ⟨_, b, offset, rfl, hheaps, hkept⟩

theorem Heaps.allocFromNew {blocks : List Datablock} {length : Nat} {db : Datablock}
    {l : List Rec} {chain : List Nat} (h : Heaps blocks) (hinv : DbInv blocks.length db l chain)
    (hlo : 12 ≤ length) (hfree : db.firstFreeIndex < keyRecordsPerDatablock)
    (built : Except ErrorCode KeyRecordTable) :
    Heaps (Registry.allocFromNew blocks length db built).1 ∧
      Kept blocks (Registry.allocFromNew blocks length db built).1 none := by
  obtain ⟨hheaps, hkept⟩ := h.append hinv
  have hlast : (blocks ++ [db])[blocks.length]? = some db := by
    rw [List.getElem?_append_right (Nat.le_refl _), Nat.sub_self]
    rfl
  cases built with
  | error e => exact ⟨hheaps, hkept⟩
  | ok table =>
    rcases hinv.allocAdd hlo hfree with
      ⟨e, hfail⟩ | ⟨db', offset, l', chain', hok, hinv', hbodies⟩
    · simp only [Registry.allocFromNew, hfail]
      exact ⟨hheaps, hkept⟩
    · simp only [Registry.allocFromNew, hok]
      have hset : (blocks ++ [db]).set blocks.length db' = blocks ++ [db'] := by
        rw [List.set_append_right _ _ (Nat.le_refl _), Nat.sub_self]
        rfl
      obtain ⟨hheaps', hkept'⟩ := allocated_set hheaps hlast
        (hinv.preserves hinv' fun i _ hi _ => hbodies _ hi)
      rw [hset] at hheaps' hkept'
      exact ⟨hheaps', hkept.trans hkept'⟩

theorem Heaps.makeNew {blocks : List Datablock} {length : Nat}
    (h : Heaps blocks) (env : RecordEnv) (hlo : 12 ≤ length) (hhi : length < 2 ^ 30) :
    Heaps (makeNewDatablock blocks length env).1 ∧
      Kept blocks (makeNewDatablock blocks length env).1 none := by
  by_cases hcount : blocks.length ≥ datablocksPerFile
  · rw [makeNewDatablock, if_pos hcount]
    exact ⟨h, Kept.refl _ _⟩
  · rw [makeNewDatablock, if_neg hcount]
    cases hcreate : env.create with
    | none => exact ⟨h, Kept.refl _ _⟩
    | some buffers =>
      obtain ⟨behind, table⟩ := buffers
      have hlt : blocks.length < 0xFFFF := by
        simp only [datablocksPerFile] at hcount
        omega
      obtain ⟨size, hinv⟩ := rgCreateDatablock_inv hlt hhi behind table
      have hfree : (rgCreateDatablock length behind table).firstFreeIndex <
          keyRecordsPerDatablock := by
        rw [rgCreateDatablock_first]
        exact Nat.zero_lt_succ 254
      simp only
      exact h.allocFromNew hinv hlo hfree _

/-- Allocating a key record keeps all others, whatever fails. -/
theorem Heaps.alloc {blocks : List Datablock} {length : Nat} {env : RecordEnv}
    (h : Heaps blocks) (hlo : 12 ≤ length) (hhi : length < 2 ^ 30) :
    Heaps (rgAllocKeyRecord blocks length env).1 ∧
      Kept blocks (rgAllocKeyRecord blocks length env).1 none := by
  unfold rgAllocKeyRecord
  rcases Heaps.allocPass env hlo hhi false blocks.length h with
    ⟨blocks₁, heq, hheaps, hkept⟩ | ⟨blocks₁, b, offset, heq, hheaps, hkept⟩
  · simp only [heq]
    rcases Heaps.allocPass env hlo hhi true blocks₁.length hheaps with
      ⟨blocks₂, heq₂, hheaps₂, hkept₂⟩ | ⟨blocks₂, b, offset, heq₂, hheaps₂, hkept₂⟩
    · simp only [heq₂]
      obtain ⟨hheaps₃, hkept₃⟩ := hheaps₂.makeNew env hlo hhi
      exact ⟨hheaps₃, (hkept.trans hkept₂).trans hkept₃⟩
    · simp only [heq₂]
      exact ⟨hheaps₂, hkept.trans hkept₂⟩
  · simp only [heq]
    exact ⟨hheaps, hkept⟩

/-- A call on the key records or the datablocks of a file. -/
inductive HeapCall where
  | alloc (length : Nat) (env : RecordEnv)
  | extend (blockIndex index length : Nat)
  | reAlloc (blockIndex index length : Nat)
  | write (blockIndex index : Nat) (data : List UCHAR)
  | free (blockIndex index : Nat)
  | extendDatablock (blockIndex length : Nat) (reAlloc : Option Buffer)
  | compact (blockIndex : Nat)

/-- The key record that a call is about. -/
def HeapCall.target : HeapCall → Option (Nat × Nat)
  | .extend b i _ | .reAlloc b i _ | .write b i _ | .free b i => some (b, i)
  | _ => none

/-- The calls as their callers make them: a key record has at least the fields of a
`KEY_RECORD`, and a call about one has looked it up in the index table. -/
inductive HeapStep : List Datablock → HeapCall → List Datablock → Prop where
  | alloc {blocks : List Datablock} {length : Nat} {env : RecordEnv} (hlo : 20 ≤ length)
      (hhi : length < 2 ^ 30) :
      HeapStep blocks (.alloc length env) (rgAllocKeyRecord blocks length env).1
  | extend {blocks : List Datablock} {b i length : Nat} {db : Datablock}
      (hb : blocks[b]? = some db) (hi : i < keyRecordsPerDatablock) (hne : db.table i ≠ 0) :
      HeapStep blocks (.extend b i length)
        (blocks.set b (rgExtendKeyRecord db length (db.table i)).1)
  | reAlloc {blocks : List Datablock} {b i length : Nat} {db : Datablock}
      (hb : blocks[b]? = some db) (hi : i < keyRecordsPerDatablock) (hne : db.table i ≠ 0)
      (hlo : 20 ≤ dwordAt db.mem (db.table i + 8))
      (hhi : dwordAt db.mem (db.table i + 8) ≤ length) :
      HeapStep blocks (.reAlloc b i length) (blocks.set b (rgReAllocKeyRecord db i length))
  | write {blocks : List Datablock} {b i : Nat} {data : List UCHAR} {db : Datablock}
      (hb : blocks[b]? = some db) (hi : i < keyRecordsPerDatablock) (hne : db.table i ≠ 0) :
      HeapStep blocks (.write b i data) (blocks.set b (db.writeKeyRecord i data))
  | free {blocks : List Datablock} {b i : Nat} {db : Datablock}
      (hb : blocks[b]? = some db) (hi : i < keyRecordsPerDatablock) (hne : db.table i ≠ 0) :
      HeapStep blocks (.free b i)
        (blocks.set b (rgFreeKeyRecordIndex (rgFreeKeyRecord db (db.table i)) i))
  | extendDatablock {blocks : List Datablock} {b length : Nat} {reAlloc : Option Buffer}
      {db : Datablock} (hb : blocks[b]? = some db) (hhi : length < 2 ^ 30) :
      HeapStep blocks (.extendDatablock b length reAlloc)
        (blocks.set b (rgExtendDatablock db length reAlloc).1)
  | compact {blocks : List Datablock} {b : Nat} {db : Datablock} (hb : blocks[b]? = some db) :
      HeapStep blocks (.compact b) (blocks.set b (rgCompactDatablock db))

theorem HeapStep.sound {blocks blocks' : List Datablock} {call : HeapCall}
    (hstep : HeapStep blocks call blocks') (h : Heaps blocks) :
    Heaps blocks' ∧ Kept blocks blocks' call.target := by
  cases hstep with
  | alloc hlo hhi => exact h.alloc (Nat.le_trans (by decide) hlo) hhi
  | extend hb hi hne =>
    obtain ⟨l, chain, hinv⟩ := h _ _ hb
    obtain ⟨l', chain', hinv', hbodies⟩ := hinv.extend hi hne _
    exact h.set hb (hinv.preserves_other hinv' hbodies)
  | reAlloc hb hi hne hlo hhi =>
    obtain ⟨l, chain, hinv⟩ := h _ _ hb
    exact h.set hb (hinv.reAlloc hi hne hlo hhi)
  | write hb hi hne =>
    obtain ⟨l, chain, hinv⟩ := h _ _ hb
    obtain ⟨l', hinv', hbodies⟩ := hinv.write hi hne
    exact h.set hb (hinv.preserves_other hinv' hbodies)
  | free hb hi hne =>
    obtain ⟨l, chain, hinv⟩ := h _ _ hb
    obtain ⟨l', chain', hinv', hbodies⟩ := hinv.freeRecord hi hne
    exact h.set hb (hinv.preserves_other hinv' hbodies)
  | @extendDatablock b length reAlloc db hb hhi =>
    obtain ⟨l, chain, hinv⟩ := h _ _ hb
    obtain ⟨l', chain', hinv', -, hbodies⟩ := hinv.extendDatablock hhi reAlloc
    have hpres : Preserves b db (rgExtendDatablock db length reAlloc).1 none :=
      hinv.preserves hinv' fun _ _ _ _ => hbodies _
    exact h.set hb hpres
  | compact hb =>
    obtain ⟨l, chain, hinv⟩ := h _ _ hb
    exact h.set hb hinv.compact_preserves

/-- The datablocks of a file that `RgCreateDatablock` has just made. -/
def Fresh (blocks : List Datablock) : Prop :=
  blocks.length ≤ datablocksPerFile ∧ ∀ (b : Nat) (db : Datablock), blocks[b]? = some db →
    ∃ length behind table, length < 2 ^ 30 ∧ db = rgCreateDatablock length behind table

theorem Fresh.heaps {blocks : List Datablock} (h : Fresh blocks) : Heaps blocks := by
  intro b db hb
  obtain ⟨length, behind, table, hlen, hdb⟩ := h.2 b db hb
  have hlt : b < 0xFFFF := by
    have hb := (List.getElem?_eq_some_iff.mp hb).1
    have hcount := h.1
    simp only [datablocksPerFile] at hcount
    omega
  obtain ⟨size, hinv⟩ := rgCreateDatablock_inv hlt hlen behind table
  rw [hdb]
  exact ⟨_, _, hinv⟩

/-- From new datablocks on, whatever the calls and whichever of them fail, the
records of every datablock are in order, and no call changes the bytes of a key
record in use that it is not about. -/
theorem datablock_runs_sound {blocks blocks' : List Datablock} {calls : List HeapCall}
    (hnew : Fresh blocks) (hrun : Run HeapStep blocks calls blocks') :
    Heaps blocks' ∧ ∀ call blocks'', HeapStep blocks' call blocks'' →
      Kept blocks' blocks'' call.target := by
  have hheaps : Heaps blocks' := hrun.invariant hnew.heaps fun _ _ _ h hstep => (hstep.sound h).1
  exact ⟨hheaps, fun _ _ hstep => (hstep.sound hheaps).2⟩

theorem datablock_runs_sound_alloc :
    let blocks := [rgCreateDatablock 100 (fun _ => 0) fun _ => 0]
    let env : RecordEnv := ⟨fun _ _ => true, fun _ => none, none⟩
    Heaps (rgAllocKeyRecord (rgAllocKeyRecord blocks 40 env).1 60 env).1 := by
  have hnew : Fresh [rgCreateDatablock 100 (fun _ => 0) fun _ => 0] := by
    refine ⟨by decide, fun b db hb => ?_⟩
    obtain rfl := List.mem_singleton.mp (List.mem_of_getElem? hb)
    exact ⟨100, _, _, by decide, rfl⟩
  exact (datablock_runs_sound hnew
    ((Run.single (.alloc (by decide) (by decide))).snoc (.alloc (by decide) (by decide)))).1

end SdkTools.Registry
