import SdkTools.Lib.Interval
import SdkTools.MemoryMap.Model

/-!
# The region list as a set of disjoint intervals

`WellFormed` is what a map without permitted overlaps keeps as long as no
request starts strictly inside a region (`Clear`) or reaches the last address.
`Maps m x b` is the meaning of such a map: address `x` holds `b`.
-/

namespace SdkTools.MemoryMap

open Lib.Interval

set_option autoImplicit false

def lo (e : MemoryMapEntry) : Nat := e.baseOfRegion.toNat

def hi (e : MemoryMapEntry) : Nat := e.baseOfRegion.toNat + e.sizeOfRegion.toNat

structure WellFormed (m : MappedMemoryMap) : Prop where
  ordered : Ordered lo hi m.list
  nonempty : ∀ e ∈ m.list, lo e < hi e
  below : ∀ e ∈ m.list, hi e < 2 ^ 64
  backed : ∀ e ∈ m.list, e.sizeOfRegion.toNat ≤ e.region.length
  strict : ∀ e ∈ m.list, e.allowOverlap = false

theorem WellFormed.empty : WellFormed .empty := by
  constructor <;> simp [MappedMemoryMap.empty, Ordered]

/-- Address `x` lies in a region whose buffer holds `b` there. -/
def Maps (m : MappedMemoryMap) (x : Nat) (b : UCHAR) : Prop :=
  ∃ e ∈ m.list, Has lo hi e x ∧ e.region[x - lo e]? = some b

theorem WellFormed.sorted {m : MappedMemoryMap} (h : WellFormed m) :
    m.list.Pairwise fun a b => lo a < lo b := h.ordered.lo_sorted h.nonempty

theorem WellFormed.maps_unique {m : MappedMemoryMap} (h : WellFormed m) {x : Nat} {b c : UCHAR}
    (hb : Maps m x b) (hc : Maps m x c) : b = c := by
  obtain ⟨e, he, hex, heb⟩ := hb
  obtain ⟨k, hk, hkx, hkc⟩ := hc
  obtain rfl := h.ordered.unique he hk hex hkx
  simpa using heb.symm.trans hkc

/-! ### Insertion -/

theorem base_lt_of_mem_take {base : ULONG64} {l : List MemoryMapEntry} {e : MemoryMapEntry}
    (he : e ∈ l.take (findPreceedingRegion base l)) : lo e < base.toNat := by
  induction l with
  | nil => simp at he
  | cons a l ih =>
    by_cases ha : a.baseOfRegion ≥ base
    · simp [findPreceedingRegion, ha] at he
    · simp only [findPreceedingRegion, ha, if_false, List.take_succ_cons, List.mem_cons] at he
      rcases he with rfl | he
      · unfold lo
        bv_omega
      · exact ih he

theorem base_le_of_mem_drop {base : ULONG64} {l : List MemoryMapEntry} {e : MemoryMapEntry}
    (hs : l.Pairwise fun a b => lo a ≤ lo b)
    (he : e ∈ l.drop (findPreceedingRegion base l)) : base.toNat ≤ lo e := by
  induction l with
  | nil => simp at he
  | cons a l ih =>
    obtain ⟨ha', hl⟩ := List.pairwise_cons.mp hs
    by_cases ha : a.baseOfRegion ≥ base
    · have hab : base.toNat ≤ lo a := by
        unfold lo
        bv_omega
      simp only [findPreceedingRegion, ha, if_true, List.drop_zero, List.mem_cons] at he
      rcases he with rfl | he
      · exact hab
      · have := ha' e he
        omega
    · simp only [findPreceedingRegion, ha, if_false, List.drop_succ_cons] at he
      exact ih hl he

theorem mem_addMapEntry {m : MappedMemoryMap} {n e : MemoryMapEntry} :
    e ∈ (addMapEntry m n).list ↔ e = n ∨ e ∈ m.list := by
  conv_rhs => rw [← List.take_append_drop (findPreceedingRegion n.baseOfRegion m.list) m.list]
  simp only [addMapEntry, List.mem_append, List.mem_cons]
  exact or_left_comm

/-- A new entry may be linked in when it meets no existing one. -/
theorem WellFormed.addMapEntry {m : MappedMemoryMap} (h : WellFormed m) {n : MemoryMapEntry}
    (hne : lo n < hi n) (htop : hi n < 2 ^ 64) (hbuf : n.sizeOfRegion.toNat ≤ n.region.length)
    (hstrict : n.allowOverlap = false)
    (gap : ∀ e ∈ m.list, hi e ≤ lo n ∨ hi n ≤ lo e) : WellFormed (addMapEntry m n) where
  ordered := by
    have hk := List.take_append_drop (findPreceedingRegion n.baseOfRegion m.list) m.list
    apply Ordered.insert (by simpa only [hk] using h.ordered)
    · intro a ha
      have hlt : lo a < lo n := base_lt_of_mem_take ha
      rcases gap a (List.mem_of_mem_take ha) with hg | hg <;> omega
    · intro b hb
      have hle : lo n ≤ lo b := base_le_of_mem_drop (h.sorted.imp Nat.le_of_lt) hb
      have := h.nonempty b (List.mem_of_mem_drop hb)
      rcases gap b (List.mem_of_mem_drop hb) with hg | hg <;> omega
  nonempty e he := by
    rcases mem_addMapEntry.mp he with rfl | he
    exacts [hne, h.nonempty e he]
  below e he := by
    rcases mem_addMapEntry.mp he with rfl | he
    exacts [htop, h.below e he]
  backed e he := by
    rcases mem_addMapEntry.mp he with rfl | he
    exacts [hbuf, h.backed e he]
  strict e he := by
    rcases mem_addMapEntry.mp he with rfl | he
    exacts [hstrict, h.strict e he]

theorem maps_addMapEntry {m : MappedMemoryMap} {n : MemoryMapEntry} {x : Nat} {b : UCHAR} :
    Maps (addMapEntry m n) x b ↔
      (Has lo hi n x ∧ n.region[x - lo n]? = some b) ∨ Maps m x b := by
  constructor
  · rintro ⟨e, he, hx⟩
    rcases mem_addMapEntry.mp he with rfl | he
    · exact Or.inl hx
    · exact Or.inr ⟨e, he, hx⟩
  · rintro (hx | ⟨e, he, hx⟩)
    · exact ⟨n, mem_addMapEntry.mpr (Or.inl rfl), hx⟩
    · exact ⟨e, mem_addMapEntry.mpr (Or.inr he), hx⟩

/-! ### Looking for an overlap -/

theorem findOverlap_none {base stop : ULONG64} {l : List MemoryMapEntry}
    (hstrict : ∀ e ∈ l, e.allowOverlap = false) (h : findOverlap base stop false l = none)
    {e : MemoryMapEntry} (he : e ∈ l) : lo e < base.toNat ∨ stop.toNat ≤ lo e := by
  induction l with
  | nil => simp at he
  | cons a l ih =>
    by_cases ha : stop > a.baseOfRegion ∧ a.baseOfRegion ≥ base
    · simp [findOverlap, ha, hstrict a List.mem_cons_self] at h
    · simp only [findOverlap, ha, if_false] at h
      rcases List.mem_cons.mp he with rfl | he
      · unfold lo
        bv_omega
      · exact ih (fun k hk => hstrict k (List.mem_cons_of_mem a hk)) h he

/-- The reported entry is the first one that starts in the range. -/
theorem findOverlap_some {base stop : ULONG64} {l : List MemoryMapEntry} {e : MemoryMapEntry}
    (hs : l.Pairwise fun a b => lo a < lo b) (h : findOverlap base stop false l = some e) :
    e ∈ l ∧ base.toNat ≤ lo e ∧ lo e < stop.toNat ∧
      ∀ k ∈ l, lo k < base.toNat ∨ lo e ≤ lo k := by
  induction l with
  | nil => simp [findOverlap] at h
  | cons a l ih =>
    obtain ⟨ha', hl⟩ := List.pairwise_cons.mp hs
    by_cases ha : stop > a.baseOfRegion ∧ a.baseOfRegion ≥ base
    · simp only [findOverlap, ha, and_self, if_true, Bool.false_or] at h
      split at h
      · simp at h
      · obtain rfl : a = e := by simpa using h
        refine ⟨List.mem_cons_self, by unfold lo; bv_omega, by unfold lo; bv_omega, ?_⟩
        intro k hk
        rcases List.mem_cons.mp hk with rfl | hk
        · exact Or.inr (Nat.le_refl _)
        · exact Or.inr (Nat.le_of_lt (ha' k hk))
    · simp only [findOverlap, ha, if_false] at h
      obtain ⟨hm, hb, ht, hfirst⟩ := ih hl h
      refine ⟨List.mem_cons_of_mem a hm, hb, ht, ?_⟩
      intro k hk
      rcases List.mem_cons.mp hk with rfl | hk
      · exact Or.inl (by have := ha' e hm; unfold lo at *; bv_omega)
      · exact hfirst k hk

end SdkTools.MemoryMap
