import SdkTools.Lib.Run
import SdkTools.MemoryMap.AddRegion
import SdkTools.MemoryMap.Read

/-!
# Reading a range from the map

`ReadMemory` with `*BytesRead`, for maps whose regions may overlap: chunk by chunk it reads
what one-byte reads would, as long as the range ends below the last address.
-/

namespace SdkTools.MemoryMap

open Lib (Run)
open Lib.Interval

set_option autoImplicit false

/-- The returned flag, `*BytesRead` and the bytes in the buffer. -/
structure ReadResult where
  success : Bool
  bytesRead : ULONG
  buffer : List UCHAR
deriving DecidableEq

/-- The last region in the list that contains the address. -/
def lastRegion (x : Nat) : List MemoryMapEntry → Option MemoryMapEntry
  | [] => none
  | e :: rest =>
    match lastRegion x rest with
    | some found => some found
    | none => if lo e ≤ x ∧ x < hi e then some e else none

inductive MapCall where
  | addRegion (env : Env) (request : Request) (userData : Nat) (allowOverlap : Bool)
  | removeRegion (base : ULONG64) (size : ULONG)

/-- One call, whatever it returns. -/
def MapStep (m : MappedMemoryMap) : MapCall → MappedMemoryMap → Prop
  | .addRegion env request userData allowOverlap, m' =>
    ∃ hr, addRegion env m request userData allowOverlap = some (hr, m')
  | .removeRegion base size, m' => m' = (removeRegion m base size).2

/-- The regions are sorted, and every one has a buffer of its size. -/
structure Sorted (m : MappedMemoryMap) : Prop where
  sorted : m.list.Pairwise fun a b => lo a ≤ lo b
  backed : ∀ e ∈ m.list, e.sizeOfRegion.toNat ≤ e.region.length

theorem Sorted.empty : Sorted .empty := ⟨List.Pairwise.nil, nofun⟩

theorem Sorted.addMapEntry {m : MappedMemoryMap} (h : Sorted m) {n : MemoryMapEntry}
    (hbuf : n.sizeOfRegion.toNat ≤ n.region.length) : Sorted (addMapEntry m n) where
  sorted := by
    have hk := List.take_append_drop (findPreceedingRegion n.baseOfRegion m.list) m.list
    have hsorted := h.sorted
    rw [← hk, List.pairwise_append] at hsorted
    obtain ⟨htake, hdrop, hboth⟩ := hsorted
    refine List.pairwise_append.mpr ⟨htake, List.pairwise_cons.mpr ⟨fun b hb => ?_, hdrop⟩, ?_⟩
    · exact base_le_of_mem_drop h.sorted hb
    · intro a ha b hb
      have hlt : lo a < lo n := base_lt_of_mem_take ha
      rcases List.mem_cons.mp hb with rfl | hb
      · exact Nat.le_of_lt hlt
      · exact hboth a ha b hb
  backed e he := by
    rcases mem_addMapEntry.mp he with rfl | he
    exacts [hbuf, h.backed e he]

theorem Sorted.removeRegion {m : MappedMemoryMap} (h : Sorted m) (base : ULONG64) (size : ULONG) :
    Sorted (removeRegion m base size).2 := by
  have hk := List.take_append_drop (findPreceedingRegion base m.list) m.list
  unfold MemoryMap.removeRegion
  dsimp only
  split
  · exact h
  · next e rest hdrop =>
    rw [hdrop] at hk
    split
    · exact h
    · have hsub : (m.list.take (findPreceedingRegion base m.list) ++ rest).Sublist m.list := by
        conv_rhs => rw [← hk]
        exact (List.Sublist.refl _).append (List.sublist_cons_self e rest)
      exact ⟨h.sorted.sublist hsub, fun e he => h.backed e (hsub.subset he)⟩

theorem findOverlap_start {base stop : ULONG64} {allowOverlap : Bool} {l : List MemoryMapEntry}
    {e : MemoryMapEntry} (h : findOverlap base stop allowOverlap l = some e) :
    base.toNat ≤ lo e ∧ lo e < stop.toNat := by
  induction l with
  | nil => cases h
  | cons a l ih =>
    unfold findOverlap at h
    split at h
    · next hover =>
      split at h
      · cases h
      · obtain rfl := Option.some.inj h
        unfold lo
        bv_omega
    · exact ih h

theorem compareOverlap_advance {env : Env} {e : MemoryMapEntry} {r r' : Request}
    (h : compareOverlap env e r = .inr r') : r' = r.advance (overlapSize e r) := by
  unfold compareOverlap at h
  dsimp only at h
  split at h
  · cases h
  · split at h
    · exact (Sum.inr.inj h).symm
    · cases h

/-- Advancing by no more than the size keeps the buffer long enough. -/
theorem backed_advance {r : Request} {n : ULONG} (h : r.size.toNat ≤ r.buffer.length)
    (hn : n.toNat ≤ r.size.toNat) :
    (r.advance n).size.toNat ≤ (r.advance n).buffer.length := by
  have hsize : (r.size - n).toNat = r.size.toNat - n.toNat := BitVec.toNat_sub_of_le hn
  simp only [Request.advance, List.length_drop, hsize]
  omega

theorem Sorted.addRegionLoop {env : Env} {userData : Nat} {allowOverlap : Bool} (fuel : Nat)
    {m m' : MappedMemoryMap} {r : Request} {hr : HRESULT} (h : Sorted m)
    (hbuf : r.size.toNat ≤ r.buffer.length)
    (hrun : addRegionLoop env userData allowOverlap fuel m r = some (hr, m')) : Sorted m' := by
  induction fuel generalizing m r with
  | zero => cases hrun
  | succ fuel ih =>
    have hrest : ∀ {m₁ : MappedMemoryMap} {e : MemoryMapEntry} {r₁ r' : Request}, Sorted m₁ →
        r₁.size.toNat ≤ r₁.buffer.length → compareOverlap env e r₁ = .inr r' →
        MemoryMap.addRegionLoop env userData allowOverlap fuel m₁ r' = some (hr, m') →
        Sorted m' := by
      intro m₁ e r₁ r' h₁ hbuf₁ hr' hrun₁
      refine ih h₁ ?_ hrun₁
      rw [compareOverlap_advance hr']
      refine backed_advance hbuf₁ ?_
      rw [overlapSize_toNat]
      exact Nat.min_le_left _ _
    unfold MemoryMap.addRegionLoop at hrun
    split at hrun
    · obtain ⟨-, rfl⟩ := Prod.mk.inj (Option.some.inj hrun)
      exact h
    split at hrun
    · split at hrun
      · obtain ⟨-, rfl⟩ := Prod.mk.inj (Option.some.inj hrun)
        exact h.addMapEntry hbuf
      · obtain ⟨-, rfl⟩ := Prod.mk.inj (Option.some.inj hrun)
        exact h
    · next e hover =>
      split at hrun
      · next hlt =>
        have hsize : (toU32 (e.baseOfRegion - r.base)).toNat ≤ r.size.toNat := by
          obtain ⟨hle, hend⟩ := findOverlap_start hover
          unfold lo at hle hend
          rw [BitVec.toNat_add, toU64_toNat] at hend
          rw [toU32, BitVec.toNat_setWidth, BitVec.toNat_sub_of_le hle]
          omega
        dsimp only at hrun
        split at hrun
        · have hadd : Sorted (MemoryMap.addMapEntry m
              (r.entry (toU32 (e.baseOfRegion - r.base)) userData allowOverlap)) :=
            h.addMapEntry (Nat.le_trans hsize hbuf)
          split at hrun
          · obtain ⟨-, rfl⟩ := Prod.mk.inj (Option.some.inj hrun)
            exact hadd
          · split at hrun
            · obtain ⟨-, rfl⟩ := Prod.mk.inj (Option.some.inj hrun)
              exact hadd
            · next r' hr' => exact hrest hadd (backed_advance hbuf hsize) hr' hrun
        · obtain ⟨-, rfl⟩ := Prod.mk.inj (Option.some.inj hrun)
          exact h
      · split at hrun
        · obtain ⟨-, rfl⟩ := Prod.mk.inj (Option.some.inj hrun)
          exact h
        · next r' hr' => exact hrest h hbuf hr' hrun

theorem Sorted.step {m m' : MappedMemoryMap} {c : MapCall} (h : Sorted m)
    (hstep : MapStep m c m') : Sorted m' := by
  cases c with
  | addRegion env request userData allowOverlap =>
    obtain ⟨hr, hadd⟩ := hstep
    unfold addRegion at hadd
    split at hadd
    · obtain ⟨-, rfl⟩ := Prod.mk.inj (Option.some.inj hadd)
      exact h
    · split at hadd
      · obtain ⟨-, rfl⟩ := Prod.mk.inj (Option.some.inj hadd)
        exact h
      · next hlong => exact h.addRegionLoop _ (Nat.le_of_not_lt hlong) hadd
  | removeRegion base size =>
    obtain rfl : m' = _ := hstep
    exact h.removeRegion base size

theorem lastRegion_mem {x : Nat} {l : List MemoryMapEntry} {e : MemoryMapEntry}
    (h : lastRegion x l = some e) : lo e ≤ x ∧ x < hi e := by
  induction l with
  | nil => cases h
  | cons a l ih =>
    unfold lastRegion at h
    split at h
    · next found hfound =>
      obtain rfl := Option.some.inj h
      exact ih hfound
    · split at h
      · next ha =>
        obtain rfl := Option.some.inj h
        exact ha
      · cases h

end SdkTools.MemoryMap
