import Mathlib.Tactic.Set
import SdkTools.MemoryMap.Invariant

/-!
# What one call of `AddRegion` does

The loop keeps `WellFormed`, forgets nothing that was mapped, maps nothing
outside the request, and on success maps the whole request to its own bytes.
-/

namespace SdkTools.MemoryMap

open Lib.Interval

set_option autoImplicit false

namespace Request

/-- Address `x` is in the requested range, which does not wrap. -/
def Has (r : Request) (x : Nat) : Prop := r.base.toNat ≤ x ∧ x < r.base.toNat + r.size.toNat

/-- The byte that the request's buffer supplies for address `x`. -/
def byte (r : Request) (x : Nat) : Option UCHAR := r.buffer[x - r.base.toNat]?

/-- What the checks at the head of `AddRegion` and the address space guarantee. -/
structure Fits (r : Request) : Prop where
  below : r.base.toNat + r.size.toNat < 2 ^ 64
  backed : r.size.toNat ≤ r.buffer.length

theorem advance_base {r : Request} (h : r.Fits) {n : ULONG} (hn : n.toNat ≤ r.size.toNat) :
    (r.advance n).base.toNat = r.base.toNat + n.toNat := by
  have := h.below
  simp only [advance, BitVec.toNat_add, toU64_toNat]
  omega

theorem advance_size {r : Request} {n : ULONG} (hn : n.toNat ≤ r.size.toNat) :
    (r.advance n).size.toNat = r.size.toNat - n.toNat := by
  simp only [advance, BitVec.toNat_sub]
  omega

theorem Fits.advance {r : Request} (h : r.Fits) {n : ULONG} (hn : n.toNat ≤ r.size.toNat) :
    (r.advance n).Fits := by
  have hb := h.below
  have hl := h.backed
  constructor
  · rw [advance_base h hn, advance_size hn]
    omega
  · rw [advance_size hn]
    simp only [Request.advance, List.length_drop]
    omega

theorem has_advance {r : Request} (h : r.Fits) {n : ULONG} (hn : n.toNat ≤ r.size.toNat)
    {x : Nat} : (r.advance n).Has x ↔ r.base.toNat + n.toNat ≤ x ∧ r.Has x := by
  unfold Has
  rw [advance_base h hn, advance_size hn]
  omega

theorem byte_advance {r : Request} (h : r.Fits) {n : ULONG} (hn : n.toNat ≤ r.size.toNat)
    {x : Nat} (hx : (r.advance n).Has x) : (r.advance n).byte x = r.byte x := by
  have hle := ((has_advance h hn).mp hx).1
  unfold byte
  rw [advance_base h hn]
  simp only [advance, List.getElem?_drop]
  congr 1
  omega

end Request

/-- No region reaches from before the base of a nonempty request across it. -/
def Clear (m : MappedMemoryMap) (r : Request) : Prop :=
  0 < r.size.toNat → ∀ e ∈ m.list, ¬ (lo e < r.base.toNat ∧ r.base.toNat < hi e)

/-- The outcome of a call, relative to the map it started from. -/
structure Added (env : Env) (m : MappedMemoryMap) (r : Request) (hr : HRESULT)
    (m' : MappedMemoryMap) : Prop where
  wellFormed : WellFormed m'
  keeps : ∀ x b, Maps m x b → Maps m' x b
  onlyAdds : ∀ x b, Maps m' x b → Maps m x b ∨ r.Has x
  fills : hr = S_OK → ∀ x b, r.Has x → r.byte x = some b → Maps m' x b
  status : (∀ a, env.malloc a = true) → (∀ a, env.pageError a = none) →
    hr = S_OK ∨ hr = HR_REGION_CONFLICT

/-- A failing call that left the map alone. -/
theorem Added.failed {env : Env} {m : MappedMemoryMap} {r : Request} {hr : HRESULT}
    (hm : WellFormed m) (hne : hr ≠ S_OK)
    (hst : (∀ a, env.malloc a = true) → (∀ a, env.pageError a = none) →
      hr = HR_REGION_CONFLICT) : Added env m r hr m where
  wellFormed := hm
  keeps _ _ h := h
  onlyAdds _ _ h := Or.inl h
  fills h := absurd h hne
  status h₁ h₂ := Or.inr (hst h₁ h₂)

/-- The first `n` bytes are dealt with; the rest of the loop handles what is left. -/
theorem Added.trim {env : Env} {m m₁ m' : MappedMemoryMap} {r : Request} {hr : HRESULT}
    (hfit : r.Fits) {n : ULONG} (hn : n.toNat ≤ r.size.toNat)
    (keeps : ∀ x b, Maps m x b → Maps m₁ x b)
    (onlyAdds : ∀ x b, Maps m₁ x b → Maps m x b ∨ r.Has x)
    (front : ∀ x b, r.Has x → x < r.base.toNat + n.toNat → r.byte x = some b → Maps m₁ x b)
    (h : Added env m₁ (r.advance n) hr m') : Added env m r hr m' where
  wellFormed := h.wellFormed
  keeps x b hx := h.keeps x b (keeps x b hx)
  onlyAdds x b hx := by
    rcases h.onlyAdds x b hx with hx | hx
    · exact onlyAdds x b hx
    · exact Or.inr ((Request.has_advance hfit hn).mp hx).2
  fills hok x b hx hb := by
    by_cases hlt : x < r.base.toNat + n.toNat
    · exact h.keeps x b (front x b hx hlt hb)
    · have hx' := (Request.has_advance hfit hn).mpr ⟨by omega, hx⟩
      exact h.fills hok x b hx' (by rw [Request.byte_advance hfit hn hx', hb])
  status := h.status

/-! ### The leading fragment -/

section Fragment

variable {m : MappedMemoryMap} {r : Request} {n : ULONG} {userData : Nat}

theorem has_entry {x : Nat} :
    Has lo hi (r.entry n userData false) x ↔ r.base.toNat ≤ x ∧ x < r.base.toNat + n.toNat :=
  Iff.rfl

/-- A part of the request that starts at its base and meets no region. -/
theorem wellFormed_fragment (hm : WellFormed m) (hfit : r.Fits) (hclear : Clear m r)
    (hpos : 0 < n.toNat) (hn : n.toNat ≤ r.size.toNat)
    (gap : ∀ e ∈ m.list, lo e < r.base.toNat ∨ r.base.toNat + n.toNat ≤ lo e) :
    WellFormed (addMapEntry m (r.entry n userData false)) := by
  have hb := hfit.below
  have hl := hfit.backed
  have hlo : lo (r.entry n userData false) = r.base.toNat := rfl
  have hhi : hi (r.entry n userData false) = r.base.toNat + n.toNat := rfl
  refine hm.addMapEntry (by omega) (by omega) (Nat.le_trans hn hl) rfl ?_
  intro e he
  have := hclear (by omega) e he
  rcases gap e he with hg | hg <;> omega

theorem maps_fragment {x : Nat} {b : UCHAR} :
    Maps (addMapEntry m (r.entry n userData false)) x b ↔
      ((r.base.toNat ≤ x ∧ x < r.base.toNat + n.toNat) ∧ r.byte x = some b) ∨ Maps m x b := by
  rw [maps_addMapEntry, has_entry]
  rfl

end Fragment

/-! ### The overlapped part -/

theorem overlapSize_toNat (e : MemoryMapEntry) (r : Request) :
    (overlapSize e r).toNat = min r.size.toNat e.sizeOfRegion.toNat := by
  unfold overlapSize
  split <;> bv_omega

/-- When the comparison lets the loop go on, the region already holds the bytes
that are trimmed off. -/
theorem compareOverlap_inr {env : Env} {e : MemoryMapEntry} {r r' : Request}
    (h : compareOverlap env e r = .inr r') (hbase : lo e = r.base.toNat) :
    r' = r.advance (overlapSize e r) ∧
      ∀ x b, r.Has x → x < r.base.toNat + (overlapSize e r).toNat → r.byte x = some b →
        Has lo hi e x ∧ e.region[x - lo e]? = some b := by
  unfold compareOverlap at h
  split at h
  · cases h
  · dsimp only at h
    split at h
    · rename_i heq
      refine ⟨by simpa using h.symm, ?_⟩
      intro x b hx hlt hb
      have hmin := overlapSize_toNat e r
      have hge := hx.1
      have hin : x - lo e < (overlapSize e r).toNat := by omega
      refine ⟨⟨by omega, by unfold hi; unfold lo at hbase; omega⟩, ?_⟩
      have hget := congrArg (fun l => l[x - lo e]?) heq
      simp only [List.getElem?_take, hin, if_true] at hget
      rw [← hget, hbase]
      exact hb
    · cases h

theorem compareOverlap_inl {env : Env} {e : MemoryMapEntry} {r : Request} {code : HRESULT}
    (h : compareOverlap env e r = .inl code) :
    code ≠ S_OK ∧ (env.pageError r.base = none → code = HR_REGION_CONFLICT) := by
  unfold compareOverlap at h
  cases hpage : env.pageError r.base with
  | some status =>
    simp only [hpage, Sum.inl.injEq] at h
    subst h
    exact ⟨hresultFromNt_ne_ok status, by simp⟩
  | none =>
    simp only [hpage] at h
    split at h
    · cases h
    · simp only [Sum.inl.injEq] at h
      subst h
      exact ⟨hresultFromNt_ne_ok _, fun _ => rfl⟩

/-! ### The loop -/

section Loop

variable {env : Env} {userData fuel : Nat} {m : MappedMemoryMap} {r : Request}
variable {e : MemoryMapEntry}

/-- The request that is left after an overlapped region starts where that region
ends, so it starts inside no other one. -/
theorem clear_advance (hm : WellFormed m) (hfit : r.Fits) (he : e ∈ m.list)
    (hbase : lo e = r.base.toNat) : Clear m (r.advance (overlapSize e r)) := by
  have hmin := overlapSize_toNat e r
  have hn : (overlapSize e r).toNat ≤ r.size.toNat := by omega
  intro hpos k hk hin
  rw [Request.advance_size hn] at hpos
  rw [Request.advance_base hfit hn] at hin
  have hend : r.base.toNat + (overlapSize e r).toNat = hi e := by unfold hi; unfold lo at hbase; omega
  have hne := hm.nonempty e he
  rcases hm.ordered.trichotomy hk he with rfl | hlt | hlt <;> omega

/-- The overlapped part, given what the loop does with the rest. -/
theorem overlap_spec (env : Env) (userData fuel : Nat) (hm : WellFormed m) (hfit : r.Fits) (hpos : 0 < r.size.toNat)
    (he : e ∈ m.list) (hbase : lo e = r.base.toNat)
    (tail : ∀ r' : Request, r'.Fits → Clear m r' → r'.size.toNat < r.size.toNat →
      ∃ hr m', addRegionLoop env userData false fuel m r' = some (hr, m') ∧
        Added env m r' hr m') :
    ∃ hr m', (match compareOverlap env e r with
        | .inl code => some (code, m)
        | .inr r' => addRegionLoop env userData false fuel m r') = some (hr, m') ∧
      Added env m r hr m' := by
  cases hcmp : compareOverlap env e r with
  | inl code =>
    obtain ⟨hne, hst⟩ := compareOverlap_inl hcmp
    exact ⟨code, m, rfl, .failed hm hne fun _ hpage => hst (hpage _)⟩
  | inr r' =>
    obtain ⟨rfl, hsame⟩ := compareOverlap_inr hcmp hbase
    have hmin := overlapSize_toNat e r
    have hsize : 0 < e.sizeOfRegion.toNat := by
      have := hm.nonempty e he
      unfold lo hi at this
      omega
    have hn : (overlapSize e r).toNat ≤ r.size.toNat := by omega
    obtain ⟨hr, m', hloop, hadd⟩ := tail _ (hfit.advance hn) (clear_advance hm hfit he hbase)
      (by rw [Request.advance_size hn]; omega)
    refine ⟨hr, m', hloop, hadd.trim hfit hn (fun _ _ h => h) (fun _ _ h => Or.inl h) ?_⟩
    intro x b hx hlt hb
    exact ⟨e, he, hsame x b hx hlt hb⟩

/-- A fragment that covers everything before the first overlapped region. -/
theorem fragment_size (hfit : r.Fits) (hlt : r.base.toNat < lo e)
    (hin : lo e < r.base.toNat + r.size.toNat) :
    (toU32 (e.baseOfRegion - r.base)).toNat = lo e - r.base.toNat := by
  have := hfit.below
  unfold lo at *
  simp only [toU32, BitVec.toNat_setWidth, BitVec.toNat_sub]
  omega

/-- With enough fuel for the bytes still to be placed, the loop ends and does what
`Added` says. The induction follows the request as it is trimmed. -/
theorem addRegionLoop_spec (env : Env) (userData fuel : Nat) :
    ∀ (m : MappedMemoryMap) (r : Request), WellFormed m → r.Fits → Clear m r →
      r.size.toNat < fuel →
      ∃ hr m', addRegionLoop env userData false fuel m r = some (hr, m') ∧ Added env m r hr m' := by
  induction fuel with
  | zero => intro m r _ _ _ hfuel; omega
  | succ fuel ih =>
    intro m r hm hfit hclear hfuel
    by_cases hzero : r.size = 0
    · refine ⟨S_OK, m, by simp [addRegionLoop, hzero], hm, fun _ _ h => h, fun _ _ h => Or.inl h,
        ?_, fun _ _ => Or.inl rfl⟩
      intro _ x b hx
      have hsize : r.size.toNat = 0 := by rw [hzero]; rfl
      unfold Request.Has at hx
      omega
    have hpos : 0 < r.size.toNat := by bv_omega
    have hbelow := hfit.below
    have hend : (r.base + toU64 r.size).toNat = r.base.toNat + r.size.toNat := by
      rw [BitVec.toNat_add, toU64_toNat]
      omega
    simp only [addRegionLoop, if_neg hzero]
    cases hover : findOverlap r.base (r.base + toU64 r.size) false m.list with
    | none =>
      dsimp only
      by_cases hmalloc : env.malloc r.base = true
      · rw [if_pos hmalloc]
        have gap : ∀ e ∈ m.list, lo e < r.base.toNat ∨ r.base.toNat + r.size.toNat ≤ lo e := by
          intro e he
          have := findOverlap_none hm.strict hover he
          omega
        refine ⟨_, _, rfl, wellFormed_fragment hm hfit hclear hpos (Nat.le_refl _) gap, ?_, ?_, ?_,
          fun _ _ => Or.inl rfl⟩
        · exact fun x b hx => maps_fragment.mpr (Or.inr hx)
        · intro x b hx
          rcases maps_fragment.mp hx with ⟨hx, _⟩ | hx
          · exact Or.inr hx
          · exact Or.inl hx
        · exact fun _ x b hx hb => maps_fragment.mpr (Or.inl ⟨hx, hb⟩)
      · rw [if_neg hmalloc]
        exact ⟨_, _, rfl, .failed hm (by decide) fun hall _ => absurd (hall _) hmalloc⟩
    | some e =>
      obtain ⟨he, hle, hin, hfirst⟩ := findOverlap_some hm.sorted hover
      rw [hend] at hin
      dsimp only
      by_cases hlt : r.base < e.baseOfRegion
      · -- A fragment is linked in first; the overlap then starts at the region's base.
        have hlt' : r.base.toNat < lo e := by unfold lo; bv_omega
        have hsize := fragment_size hfit hlt' hin
        set size : ULONG := toU32 (e.baseOfRegion - r.base) with hdef
        have hn : size.toNat ≤ r.size.toNat := by omega
        rw [if_pos hlt]
        by_cases hmalloc : env.malloc r.base = true
        · have hne : size ≠ r.size := by
            intro h
            rw [h] at hsize
            omega
          rw [if_pos hmalloc, if_neg hne]
          set m₁ := addMapEntry m (r.entry size userData false) with hm₁
          have gap : ∀ k ∈ m.list, lo k < r.base.toNat ∨ r.base.toNat + size.toNat ≤ lo k := by
            intro k hk
            rcases hfirst k hk with h | h <;> omega
          have hwf : WellFormed m₁ := wellFormed_fragment hm hfit hclear (by omega) hn gap
          have hsz := Request.advance_size hn
          have hbase : lo e = (r.advance size).base.toNat := by
            rw [Request.advance_base hfit hn]
            omega
          obtain ⟨hr, m', hres, hadd⟩ := overlap_spec env userData fuel
            hwf (hfit.advance hn) (by omega) (mem_addMapEntry.mpr (Or.inr he)) hbase
            (fun r' hfit' hclear' hlt' => ih m₁ r' hwf hfit' hclear' (by omega))
          refine ⟨hr, m', hres, hadd.trim hfit hn ?_ ?_ ?_⟩
          · exact fun x b hx => maps_fragment.mpr (Or.inr hx)
          · intro x b hx
            rcases maps_fragment.mp hx with ⟨hx, _⟩ | hx
            · exact Or.inr ⟨hx.1, by omega⟩
            · exact Or.inl hx
          · exact fun x b hx hx' hb => maps_fragment.mpr (Or.inl ⟨⟨hx.1, hx'⟩, hb⟩)
        · rw [if_neg hmalloc]
          exact ⟨_, _, rfl, .failed hm (by decide) fun hall _ => absurd (hall _) hmalloc⟩
      · have hbase : lo e = r.base.toNat := by unfold lo at *; bv_omega
        rw [if_neg hlt]
        exact overlap_spec env userData fuel hm hfit hpos he hbase
          (fun r' hfit' hclear' hlt' => ih m r' hm hfit' hclear' (by omega))

end Loop

end SdkTools.MemoryMap
