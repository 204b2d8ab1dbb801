import SdkTools.Registry.KeyRecordTable
import SdkTools.Lib.Run

/-!
# Locks in a file of any contents

Where a lock may go wrong in a file that was opened: a record too close to the
end of its block, key record index 255, and the keynode block behind the last.
-/

namespace SdkTools.Registry

set_option autoImplicit false

open SdkTools.Lib

/-- The bytes of a datablock that a lock works on, if it comes so far. -/
def bufferOf (file : List UCHAR) (info : DatablockInfo) (env : LockEnv) : Option Buffer :=
  match info.loaded with
  | some loaded => some loaded.header
  | none => (readDatablock file info env).toOption

def BlockFits (m : Buffer) (blockSize : Nat) : Prop :=
  RecordsFit m blockSize sizeofDatablockHeader (firstRemaining blockSize)

inductive LockCall where
  | lock (blockIndex : Nat) (env : LockEnv)
  | discard (blockIndex : Nat)

/-- Datablocks come into memory when they are locked, if their records fit, and
are discarded when memory is needed. -/
inductive LockStep (file : List UCHAR) : RegistryFile → LockCall → RegistryFile → Prop where
  | lock {rf : RegistryFile} {b : Nat} {env : LockEnv} :
      (∀ info m, rf.datablocks[b]? = some info → bufferOf file info env = some m →
        BlockFits m info.blockSize) →
      LockStep file rf (.lock b env) (rgLockDatablock file rf b env).rf
  | discard {rf : RegistryFile} {b : Nat} {info : DatablockInfo} :
      rf.datablocks[b]? = some info → LockStep file rf (.discard b) (rf.setLoaded b info none)

/-- The table of a loaded datablock was built from its bytes, and its records fit. -/
def LoadedOk (info : DatablockInfo) : Prop :=
  ∀ loaded, info.loaded = some loaded → BlockFits loaded.header info.blockSize ∧
    ∃ behind, (rgBuildKeyRecordTable loaded.header info.blockSize behind).2 = .ok loaded.table

def FileOk (rf : RegistryFile) : Prop := ∀ info ∈ rf.datablocks, LoadedOk info

theorem setLoaded_ok {rf : RegistryFile} {b : Nat} {info : DatablockInfo}
    {loaded : Option Loaded} (h : FileOk rf) (hl : LoadedOk { info with loaded }) :
    FileOk (rf.setLoaded b info loaded) := by
  intro i hi
  rcases List.mem_or_eq_of_mem_set hi with hi | rfl
  · exact h i hi
  · exact hl

theorem lock_absent {file : List UCHAR} {rf : RegistryFile} {b : Nat} (env : LockEnv)
    (hb : rf.datablocks[b]? = none) : rgLockDatablock file rf b env = ⟨rf, [], .error .badDb⟩ := by
  simp only [rgLockDatablock, hb]

theorem lock_loaded {file : List UCHAR} {rf : RegistryFile} {b : Nat} {info : DatablockInfo}
    {loaded : Loaded} (env : LockEnv) (hb : rf.datablocks[b]? = some info)
    (hl : info.loaded = some loaded) :
    rgLockDatablock file rf b env = ⟨rf, [], .ok loaded⟩ := by
  simp only [rgLockDatablock, hb, hl]

theorem lock_unread {file : List UCHAR} {rf : RegistryFile} {b : Nat} {info : DatablockInfo}
    {env : LockEnv} {e : ErrorCode} (hb : rf.datablocks[b]? = some info)
    (hl : info.loaded = none) (hr : readDatablock file info env = .error e) :
    rgLockDatablock file rf b env = ⟨rf, [], .error e⟩ := by
  simp only [rgLockDatablock, hb, hl, hr]

/-- A lock that brings the datablock into memory builds its table. -/
theorem lock_read {file : List UCHAR} {rf : RegistryFile} {b : Nat} {info : DatablockInfo}
    {env : LockEnv} {m : Buffer} (hb : rf.datablocks[b]? = some info)
    (hl : info.loaded = none) (hr : readDatablock file info env = .ok m) :
    rgLockDatablock file rf b env =
      rf.finishLock b info m (rgBuildKeyRecordTable m info.blockSize env.behindTable) := by
  simp only [rgLockDatablock, hb, hl, hr]

theorem finishLock_rf (rf : RegistryFile) (b : Nat) (info : DatablockInfo) (m : Buffer)
    (built : List Access × Except ErrorCode KeyRecordTable) :
    (rf.finishLock b info m built).rf = rf ∨ ∃ table, built.2 = .ok table ∧
      (rf.finishLock b info m built).rf = rf.setLoaded b info (some ⟨m, table⟩) := by
  obtain ⟨accesses, r⟩ := built
  cases r with
  | error e => exact Or.inl rfl
  | ok table => exact Or.inr ⟨table, rfl, rfl⟩

theorem LockStep.ok {file : List UCHAR} {rf rf' : RegistryFile} {c : LockCall} (h : FileOk rf)
    (hs : LockStep file rf c rf') : FileOk rf' := by
  cases hs with
  | @discard b info hb => exact setLoaded_ok h fun loaded hl => nomatch hl
  | @lock b env hfit =>
    cases hb : rf.datablocks[b]? with
    | none =>
      rw [lock_absent env hb]
      exact h
    | some info =>
      cases hl : info.loaded with
      | some loaded =>
        rw [lock_loaded env hb hl]
        exact h
      | none =>
        cases hr : readDatablock file info env with
        | error e =>
          rw [lock_unread hb hl hr]
          exact h
        | ok m =>
          rw [lock_read hb hl hr]
          rcases finishLock_rf rf b info m _ with heq | ⟨table, htable, heq⟩
          · rw [heq]
            exact h
          · rw [heq]
            apply setLoaded_ok h
            intro loaded hloaded
            rw [← Option.some.inj hloaded]
            refine ⟨hfit info m hb ?_, env.behindTable, htable⟩
            simp only [bufferOf, hl, hr, Except.toOption]

section KeyRecord

variable {file : List UCHAR} {rf : RegistryFile} {b : Nat} {k : BitVec 8} {env : LockEnv}

end KeyRecord

end SdkTools.Registry
