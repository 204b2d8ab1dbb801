import SdkTools.Lib.Run
import SdkTools.MemoryMap.AddRegion
import SdkTools.MemoryMap.Read

/-!
# Runs of successful `AddRegion` calls

A run starts from the empty map and consists of calls without permitted overlap
that return `S_OK`. `Consistent` is what callers expect of the resulting map. The
overlap scan compares region bases only, so a request that starts strictly inside
a region is never compared with it: `overlap_missed` is such a run. Runs whose
requests are all `Admissible` keep the map consistent and detect every conflict.
-/

namespace SdkTools.MemoryMap

open Lib (Run)
open Lib.Interval

set_option autoImplicit false

structure AddCall where
  env : Env
  request : Request
  userData : Nat

def AddCall.result (c : AddCall) (m : MappedMemoryMap) : Option (HRESULT × MappedMemoryMap) :=
  addRegion c.env m c.request c.userData false

/-- One call that returns `S_OK`. -/
def AddStep (m : MappedMemoryMap) (c : AddCall) (m' : MappedMemoryMap) : Prop :=
  c.result m = some (S_OK, m')

namespace Request

/-- The addresses of a request; the range may wrap. -/
def Covers (r : Request) (a : ULONG64) : Prop := (a - r.base).toNat < r.size.toNat

def byteAt (r : Request) (a : ULONG64) : Option UCHAR := r.buffer[(a - r.base).toNat]?

end Request

/-- What the callers of a map built from these requests rely on. -/
structure Consistent (rs : List Request) (m : MappedMemoryMap) : Prop where
  sorted : m.list.Pairwise fun a b => a.baseOfRegion ≤ b.baseOfRegion
  covers : ∀ a, (∃ e ∈ m.list, e.contains a = true) ↔ ∃ r ∈ rs, r.Covers a
  returns : ∀ r ∈ rs, ∀ a, r.Covers a → ∀ env : Env, env.pageError a = none →
    ∃ b, r.byteAt a = some b ∧ readMemory env m a 1 = some (true, [b])

/-- The buffer is readable and disagrees with memory that is already mapped. -/
def Conflicts (m : MappedMemoryMap) (r : Request) : Prop :=
  r.size.toNat ≤ r.buffer.length ∧ ∃ a b, r.Covers a ∧ r.byteAt a ≠ some b ∧
    ∀ env : Env, env.pageError a = none → readMemory env m a 1 = some (true, [b])

def AddCall.Undisturbed (c : AddCall) : Prop :=
  (∀ a, c.env.malloc a = true) ∧ ∀ a, c.env.pageError a = none

/-- The request ends below the last address and starts strictly inside no region. -/
def Admissible (m : MappedMemoryMap) (r : Request) : Prop :=
  (0 < r.size.toNat → r.base.toNat + r.size.toNat < 2 ^ 64) ∧ Clear m r

/-- A successful call whose request is admissible in the map it is made in. -/
def CleanStep (m : MappedMemoryMap) (c : AddCall) (m' : MappedMemoryMap) : Prop :=
  AddStep m c m' ∧ Admissible m c.request

/-! ### One call -/

theorem Request.Fits.covers_iff {r : Request} (h : r.Fits) (a : ULONG64) :
    r.Covers a ↔ r.Has a.toNat := by
  have := h.below
  unfold Covers Has
  rw [BitVec.toNat_sub]
  omega

theorem Request.Fits.byteAt_eq {r : Request} {a : ULONG64} (ha : r.Has a.toNat) :
    r.byteAt a = r.byte a.toNat := by
  have := ha.1
  unfold byteAt byte
  rw [BitVec.toNat_sub]
  congr 1
  omega

theorem Request.Fits.byte_isSome {r : Request} (h : r.Fits) {x : Nat} (hx : r.Has x) :
    ∃ b, r.byte x = some b := by
  have hl := h.backed
  have hlt : x - r.base.toNat < r.buffer.length := by
    have := hx.1
    have := hx.2
    omega
  exact ⟨_, List.getElem?_eq_getElem hlt⟩

theorem fits_of_step {m m' : MappedMemoryMap} {c : AddCall} (h : AddStep m c m')
    (hadm : Admissible m c.request) (hpos : 0 < c.request.size.toNat) : c.request.Fits := by
  refine ⟨hadm.1 hpos, ?_⟩
  by_contra hlen
  have hne : c.request.size ≠ 0 := by bv_omega
  have hlt : c.request.buffer.length < c.request.size.toNat := by omega
  simp only [AddStep, AddCall.result, addRegion, if_neg hne, if_pos hlt, Option.some.injEq,
    Prod.mk.injEq] at h
  exact absurd h.1 (by decide)

/-- A call on a readable, admissible, nonempty request always ends, as `Added` says. -/
theorem addRegion_spec {m : MappedMemoryMap} {c : AddCall} (hm : WellFormed m)
    (hfit : c.request.Fits) (hclear : Clear m c.request) (hpos : 0 < c.request.size.toNat) :
    ∃ hr m', c.result m = some (hr, m') ∧ Added c.env m c.request hr m' := by
  have hne : c.request.size ≠ 0 := by bv_omega
  have hlen : ¬ c.request.buffer.length < c.request.size.toNat := by
    have := hfit.backed
    omega
  obtain ⟨hr, m', hloop, hadd⟩ := addRegionLoop_spec c.env c.userData (c.request.size.toNat + 1)
    m c.request hm hfit hclear (by omega)
  exact ⟨hr, m', by simp only [AddCall.result, addRegion, if_neg hne, if_neg hlen, hloop], hadd⟩

/-! ### Whole runs -/

/-- What the requests so far have to do with the map. -/
structure Holds (rs : List Request) (m : MappedMemoryMap) : Prop where
  wellFormed : WellFormed m
  fits : ∀ r ∈ rs, 0 < r.size.toNat → r.Fits
  sound : ∀ x b, Maps m x b → ∃ r ∈ rs, r.Has x
  complete : ∀ r ∈ rs, ∀ x b, r.Has x → r.byte x = some b → Maps m x b

theorem Holds.step {rs : List Request} {m m' : MappedMemoryMap} {c : AddCall}
    (h : Holds rs m) (hstep : CleanStep m c m') : Holds (rs ++ [c.request]) m' := by
  obtain ⟨hadd, hadm⟩ := hstep
  by_cases hzero : c.request.size = 0
  · -- An empty request is answered with S_OK and changes nothing.
    have hsize : c.request.size.toNat = 0 := by rw [hzero]; rfl
    have hm' : m' = m := by
      simp only [AddStep, AddCall.result, addRegion, if_pos hzero, Option.some.injEq,
        Prod.mk.injEq, true_and] at hadd
      exact hadd.symm
    subst hm'
    refine ⟨h.wellFormed, ?_, ?_, ?_⟩
    · intro r hr hpos
      rcases List.mem_append.mp hr with hr | hr
      · exact h.fits r hr hpos
      · obtain rfl := List.mem_singleton.mp hr
        omega
    · intro x b hx
      obtain ⟨r, hr, hrx⟩ := h.sound x b hx
      exact ⟨r, List.mem_append_left _ hr, hrx⟩
    · intro r hr x b hx hb
      rcases List.mem_append.mp hr with hr | hr
      · exact h.complete r hr x b hx hb
      · obtain rfl := List.mem_singleton.mp hr
        unfold Request.Has at hx
        omega
  · have hpos : 0 < c.request.size.toNat := by bv_omega
    have hfit := fits_of_step hadd hadm hpos
    obtain ⟨hr, m₁, hres, hspec⟩ := addRegion_spec h.wellFormed hfit hadm.2 hpos
    obtain ⟨rfl, rfl⟩ := Prod.mk.inj (Option.some.inj (hres.symm.trans hadd))
    refine ⟨hspec.wellFormed, ?_, ?_, ?_⟩
    · intro r hr hpos'
      rcases List.mem_append.mp hr with hr | hr
      · exact h.fits r hr hpos'
      · obtain rfl := List.mem_singleton.mp hr
        exact hfit
    · intro x b hx
      rcases hspec.onlyAdds x b hx with hx | hx
      · obtain ⟨r, hr, hrx⟩ := h.sound x b hx
        exact ⟨r, List.mem_append_left _ hr, hrx⟩
      · exact ⟨c.request, List.mem_append_right _ (List.mem_singleton.mpr rfl), hx⟩
    · intro r hr x b hx hb
      rcases List.mem_append.mp hr with hr | hr
      · exact hspec.keeps x b (h.complete r hr x b hx hb)
      · obtain rfl := List.mem_singleton.mp hr
        exact hspec.fills rfl x b hx hb

theorem holds_of_run {cs : List AddCall} {m : MappedMemoryMap}
    (h : Run CleanStep .empty cs m) : Holds (cs.map AddCall.request) m := by
  have hinit : Holds (([] : List AddCall).map AddCall.request) .empty :=
    ⟨.empty, by simp, by simp [Maps, MappedMemoryMap.empty], by simp⟩
  refine h.history (I := fun cs m => Holds (cs.map AddCall.request) m) hinit ?_
  · intro cs a c b ha hstep
    simpa using ha.step hstep

/-- Every region holds a byte at each of its addresses. -/
theorem WellFormed.maps_of_contains {m : MappedMemoryMap} (h : WellFormed m)
    {e : MemoryMapEntry} (he : e ∈ m.list) {a : ULONG64} (hc : e.contains a = true) :
    ∃ b, Maps m a.toNat b := by
  have hx := (h.contains_iff he a).mp hc
  have hl := h.backed e he
  have hlt : a.toNat - lo e < e.region.length := by
    have := hx.1
    have := hx.2
    unfold hi lo at *
    omega
  exact ⟨_, e, he, hx, List.getElem?_eq_getElem hlt⟩

theorem Holds.consistent {rs : List Request} {m : MappedMemoryMap} (h : Holds rs m) :
    Consistent rs m where
  sorted := h.wellFormed.sorted.imp fun {a b} hab => by
    unfold lo at hab
    bv_omega
  covers a := by
    constructor
    · rintro ⟨e, he, hc⟩
      obtain ⟨b, hb⟩ := h.wellFormed.maps_of_contains he hc
      obtain ⟨r, hr, hx⟩ := h.sound _ b hb
      have hpos : 0 < r.size.toNat := by have := hx.1; have := hx.2; omega
      exact ⟨r, hr, ((h.fits r hr hpos).covers_iff a).mpr hx⟩
    · rintro ⟨r, hr, hc⟩
      have hpos : 0 < r.size.toNat := by unfold Request.Covers at hc; omega
      have hx := ((h.fits r hr hpos).covers_iff a).mp hc
      obtain ⟨b, hb⟩ := (h.fits r hr hpos).byte_isSome hx
      obtain ⟨e, he, hex, _⟩ := h.complete r hr _ b hx hb
      exact ⟨e, he, (h.wellFormed.contains_iff he a).mpr hex⟩
  returns r hr a hc env hpage := by
    have hpos : 0 < r.size.toNat := by unfold Request.Covers at hc; omega
    have hx := ((h.fits r hr hpos).covers_iff a).mp hc
    obtain ⟨b, hb⟩ := (h.fits r hr hpos).byte_isSome hx
    refine ⟨b, by rw [Request.Fits.byteAt_eq hx, hb], ?_⟩
    exact h.wellFormed.readMemory_one hpage (h.complete r hr _ b hx hb)

/-- With no disturbance, a conflicting admissible request is refused. -/
theorem conflict_detected {m : MappedMemoryMap} {c : AddCall} (hm : WellFormed m)
    (hadm : Admissible m c.request) (hquiet : c.Undisturbed) (hconf : Conflicts m c.request) :
    ∃ m', c.result m = some (HR_REGION_CONFLICT, m') := by
  obtain ⟨hlen, a, b, hcov, hne, hread⟩ := hconf
  have hpos : 0 < c.request.size.toNat := by unfold Request.Covers at hcov; omega
  have hfit : c.request.Fits := ⟨hadm.1 hpos, hlen⟩
  obtain ⟨hr, m', hres, hspec⟩ := addRegion_spec hm hfit hadm.2 hpos
  rcases hspec.status hquiet.1 hquiet.2 with rfl | rfl
  · exfalso
    have hx := (hfit.covers_iff a).mp hcov
    obtain ⟨b', hb'⟩ := hfit.byte_isSome hx
    have hread := hread c.env (hquiet.2 a)
    -- What was read before the call is a mapped byte, and the call keeps it.
    have hold : Maps m a.toNat b := by
      by_contra hno
      by_cases hin : ∃ e ∈ m.list, Has lo hi e a.toNat
      · obtain ⟨e, he, hex⟩ := hin
        obtain ⟨k, hk⟩ := hm.maps_of_contains he ((hm.contains_iff he a).mpr hex)
        rw [hm.readMemory_one (hquiet.2 a) hk] at hread
        simp only [Option.some.injEq, Prod.mk.injEq, List.cons.injEq, and_true, true_and] at hread
        exact hno (hread ▸ hk)
      · rw [hm.readMemory_unmapped fun e he hex => hin ⟨e, he, hex⟩] at hread
        simp at hread
    have hnew := hspec.fills rfl _ b' hx hb'
    have := hspec.wellFormed.maps_unique (hspec.keeps _ _ hold) hnew
    subst this
    exact hne (by rw [Request.Fits.byteAt_eq hx, hb'])
  · exact ⟨m', hres⟩

/-- Admissible runs keep the map consistent with every buffer added, and in the map
they reach every conflicting admissible call returns `HR_REGION_CONFLICT`. -/
theorem consistent_of_clean_run {cs : List AddCall} {m : MappedMemoryMap}
    (h : Run CleanStep .empty cs m) :
    Consistent (cs.map AddCall.request) m ∧
      ∀ c : AddCall, Admissible m c.request → c.Undisturbed → Conflicts m c.request →
        ∃ m', c.result m = some (HR_REGION_CONFLICT, m') := by
  have hh := holds_of_run h
  exact ⟨hh.consistent, fun c => conflict_detected hh.wellFormed⟩

/-- A host system in which nothing fails. -/
def quiet : Env := ⟨fun _ => true, fun _ => none⟩

/-- A request that starts below a region and ends above it keeps the map consistent. -/
theorem consistent_of_spanning_run :
    ∃ m : MappedMemoryMap,
      Consistent [⟨0x1000, 4, [1, 2, 3, 4]⟩, ⟨0x0FFE, 7, [8, 9, 1, 2, 3, 4, 7]⟩] m := by
  have h₁ : CleanStep .empty ⟨quiet, ⟨0x1000, 4, [1, 2, 3, 4]⟩, 0⟩
      ⟨[⟨0x1000, 4, [1, 2, 3, 4], 0, false⟩], 1⟩ :=
    ⟨by unfold AddStep; decide, by decide, by simp [Clear, MappedMemoryMap.empty]⟩
  have h₂ : CleanStep ⟨[⟨0x1000, 4, [1, 2, 3, 4], 0, false⟩], 1⟩
      ⟨quiet, ⟨0x0FFE, 7, [8, 9, 1, 2, 3, 4, 7]⟩, 0⟩
      ⟨[⟨0x0FFE, 2, [8, 9, 1, 2, 3, 4, 7], 0, false⟩, ⟨0x1000, 4, [1, 2, 3, 4], 0, false⟩,
        ⟨0x1004, 1, [7], 0, false⟩], 3⟩ :=
    ⟨by unfold AddStep; decide, by decide, by simp [Clear, lo]⟩
  exact ⟨_, (consistent_of_clean_run ((Run.single h₁).snoc h₂)).1⟩

/-- A second buffer that starts inside the first region is accepted although it disagrees. -/
theorem overlap_missed :
    ∃ m : MappedMemoryMap,
      Run AddStep .empty [⟨quiet, ⟨0x1000, 4, [1, 2, 3, 4]⟩, 0⟩, ⟨quiet, ⟨0x1001, 1, [9]⟩, 0⟩] m ∧
        ¬ Consistent [⟨0x1000, 4, [1, 2, 3, 4]⟩, ⟨0x1001, 1, [9]⟩] m := by
  refine ⟨⟨[⟨0x1000, 4, [1, 2, 3, 4], 0, false⟩, ⟨0x1001, 1, [9], 0, false⟩], 2⟩, ?_, ?_⟩
  · have h₁ : AddStep .empty ⟨quiet, ⟨0x1000, 4, [1, 2, 3, 4]⟩, 0⟩
        ⟨[⟨0x1000, 4, [1, 2, 3, 4], 0, false⟩], 1⟩ := by unfold AddStep; decide
    have h₂ : AddStep ⟨[⟨0x1000, 4, [1, 2, 3, 4], 0, false⟩], 1⟩
        ⟨quiet, ⟨0x1001, 1, [9]⟩, 0⟩
        ⟨[⟨0x1000, 4, [1, 2, 3, 4], 0, false⟩, ⟨0x1001, 1, [9], 0, false⟩], 2⟩ := by
      unfold AddStep; decide
    exact (Run.single h₁).snoc h₂
  · intro h
    obtain ⟨b, hb, hread⟩ := h.returns ⟨0x1000, 4, [1, 2, 3, 4]⟩ (by simp) 0x1001
      (by unfold Request.Covers; decide) quiet rfl
    have hb : b = 2 := by
      have : (some 2 : Option UCHAR) = some b := hb
      exact (Option.some.inj this).symm
    subst hb
    revert hread
    decide

end SdkTools.MemoryMap
