import SdkTools.MemoryMap.Invariant

/-!
# Reading one byte from the map

`FindContainingRegion` returns the last entry that contains the address; in a
well-formed map that is the only one, so a one-byte read returns what `Maps` says.
-/

namespace SdkTools.MemoryMap

open Lib.Interval

set_option autoImplicit false

/-- The last entry that contains the address, with the entries after it. -/
def lastContaining (addr : ULONG64) :
    List MemoryMapEntry → Option (MemoryMapEntry × List MemoryMapEntry)
  | [] => none
  | e :: rest =>
    match lastContaining addr rest with
    | some found => some found
    | none => if e.contains addr then some (e, rest) else none

theorem findContainingRegionLoop_eq (addr : ULONG64) (l : List MemoryMapEntry)
    (found : Option (MemoryMapEntry × List MemoryMapEntry))
    (h : ∀ r, found = some r → r.1.contains addr = true) :
    findContainingRegionLoop addr l found = (lastContaining addr l).or found := by
  induction l generalizing found with
  | nil => simp [findContainingRegionLoop, lastContaining]
  | cons e l ih =>
    by_cases he : e.contains addr = true
    · have hnew : ∀ r, some (e, l) = some r → r.1.contains addr = true := by
        rintro r hr
        obtain rfl := Option.some.inj hr
        exact he
      simp only [findContainingRegionLoop, if_pos he, lastContaining, ih _ hnew]
      cases lastContaining addr l <;> simp
    · have htail := ih found h
      cases found with
      | none =>
        simp only [findContainingRegionLoop, if_neg he, lastContaining, htail]
        cases lastContaining addr l <;> simp
      | some r =>
        -- The early exit of the source is never taken: the entry found contains the address.
        have hlt : ¬ addr ≥ r.1.baseOfRegion + toU64 r.1.sizeOfRegion := by
          have := h r rfl
          simp only [MemoryMapEntry.contains, decide_eq_true_eq] at this
          bv_omega
        simp only [findContainingRegionLoop, if_neg he, if_neg hlt, lastContaining, htail]
        cases lastContaining addr l <;> simp

theorem findContainingRegion_eq (m : MappedMemoryMap) (addr : ULONG64) :
    findContainingRegion m addr = lastContaining addr m.list := by
  unfold findContainingRegion
  rw [findContainingRegionLoop_eq addr m.list none (by simp), Option.or_none]

theorem lastContaining_some {addr : ULONG64} {l rest : List MemoryMapEntry} {e : MemoryMapEntry}
    (h : lastContaining addr l = some (e, rest)) : e ∈ l ∧ e.contains addr = true := by
  induction l with
  | nil => simp [lastContaining] at h
  | cons a l ih =>
    unfold lastContaining at h
    split at h
    · rename_i found hfound
      obtain rfl := Option.some.inj h
      obtain ⟨hm, hc⟩ := ih hfound
      exact ⟨List.mem_cons_of_mem a hm, hc⟩
    · split at h
      · rename_i ha
        obtain ⟨rfl, rfl⟩ := Prod.mk.inj (Option.some.inj h)
        exact ⟨List.mem_cons_self, ha⟩
      · cases h

theorem lastContaining_isSome {addr : ULONG64} {l : List MemoryMapEntry} {e : MemoryMapEntry}
    (he : e ∈ l) (hc : e.contains addr = true) : ∃ found, lastContaining addr l = some found := by
  induction l with
  | nil => simp at he
  | cons a l ih =>
    unfold lastContaining
    split
    · exact ⟨_, rfl⟩
    · rename_i hnone
      rcases List.mem_cons.mp he with rfl | he
      · exact ⟨_, by rw [if_pos hc]⟩
      · obtain ⟨found, hfound⟩ := ih he
        simp [hfound] at hnone

theorem WellFormed.contains_iff {m : MappedMemoryMap} (h : WellFormed m) {e : MemoryMapEntry}
    (he : e ∈ m.list) (addr : ULONG64) :
    e.contains addr = true ↔ Has lo hi e addr.toNat := by
  have htop := h.below e he
  have hend : (e.baseOfRegion + toU64 e.sizeOfRegion).toNat = hi e := by
    unfold hi at *
    rw [BitVec.toNat_add, toU64_toNat]
    omega
  unfold MemoryMapEntry.contains Has lo
  rw [← hend]
  simp only [decide_eq_true_eq, BitVec.le_def, BitVec.lt_def]

/-- Later regions never hide the address being read. -/
theorem availSize_bounds (rest : List MemoryMapEntry) {e : MemoryMapEntry} {addr : ULONG64}
    (hle : e.baseOfRegion.toNat ≤ addr.toNat) (hlt : addr.toNat < hi e) :
    addr.toNat - e.baseOfRegion.toNat < (availSize e addr rest).toNat ∧
      (availSize e addr rest).toNat ≤ e.sizeOfRegion.toNat := by
  unfold hi at hlt
  induction rest with
  | nil => exact ⟨by unfold availSize; omega, Nat.le_refl _⟩
  | cons next rest ih =>
    unfold availSize
    split
    · rename_i hgt
      dsimp only
      split
      · rename_i hdiff
        rw [BitVec.lt_def, toU64_toNat, BitVec.toNat_sub] at hdiff
        rw [toU32, BitVec.toNat_setWidth, BitVec.toNat_sub]
        have : addr.toNat < next.baseOfRegion.toNat := by bv_omega
        omega
      · exact ⟨by omega, Nat.le_refl _⟩
    · exact ih

/-- A one-byte read, without page errors. -/
theorem WellFormed.readMemory_one {env : Env} {m : MappedMemoryMap} (h : WellFormed m)
    {addr : ULONG64} {b : UCHAR} (hpage : env.pageError addr = none)
    (hb : Maps m addr.toNat b) : readMemory env m addr 1 = some (true, [b]) := by
  obtain ⟨e, he, hx, hget⟩ := hb
  obtain ⟨⟨k, rest⟩, hfound⟩ := lastContaining_isSome he ((h.contains_iff he addr).mpr hx)
  obtain ⟨hk, hkc⟩ := lastContaining_some hfound
  obtain rfl : k = e := h.ordered.unique hk he ((h.contains_iff hk addr).mp hkc) hx
  have hle : k.baseOfRegion.toNat ≤ addr.toNat := hx.1
  have htop := h.below k hk
  obtain ⟨havail, hsize⟩ := availSize_bounds rest hle hx.2
  -- The chunk is the whole request, since the region holds at least this one byte.
  have hchunk : bytesToReadFromRegion k rest addr 1#32 = 1#32 := by
    have hone : (1#32).toNat = 1 := rfl
    have hlt := hx.2
    unfold hi at htop hlt
    unfold bytesToReadFromRegion
    refine if_neg ?_
    rw [gt_iff_lt, BitVec.lt_def, BitVec.toNat_add, BitVec.toNat_add, toU64_toNat, toU64_toNat, hone]
    omega
  have hoff : (addr - k.baseOfRegion).toNat = addr.toNat - lo k := by
    unfold lo
    bv_omega
  have hdrop : (k.region.drop (addr.toNat - lo k)).take 1 = [b] := by
    obtain ⟨hlen, hval⟩ := List.getElem?_eq_some_iff.mp hget
    rw [List.drop_eq_getElem_cons hlen, hval]
    rfl
  simp [readMemory, readMemoryLoop, findContainingRegion_eq, hfound, hpage, hchunk, hoff, hdrop]

theorem WellFormed.readMemory_unmapped {env : Env} {m : MappedMemoryMap} (h : WellFormed m)
    {addr : ULONG64} (hno : ∀ e ∈ m.list, ¬ Has lo hi e addr.toNat) :
    readMemory env m addr 1 = some (false, []) := by
  have hnone : lastContaining addr m.list = none := by
    cases hfound : lastContaining addr m.list with
    | none => rfl
    | some found =>
      obtain ⟨k, rest⟩ := found
      obtain ⟨hm, hc⟩ := lastContaining_some hfound
      exact absurd ((h.contains_iff hm addr).mp hc) (hno _ hm)
  simp [readMemory, readMemoryLoop, findContainingRegion_eq, hnone]

end SdkTools.MemoryMap
