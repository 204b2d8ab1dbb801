import SdkTools.Registry.RecordSteps

/-!
# Indexes of key records

Giving an index to a record, freeing the index and moving the index to another
record, and what the index table then says.
-/

namespace SdkTools.Registry

set_option autoImplicit false

theorem find_splice {a : Nat} {pre : List Rec} (mid mid' : List Rec) {post : List Rec} {o : Nat}
    (htotal : total mid' = total mid) (h : a ∉ addresses mid) (h' : a ∉ addresses mid') :
    find a o (pre ++ (mid' ++ post)) = find a o (pre ++ (mid ++ post)) := by
  rw [find_append, find_append, find_append, find_append, find_none h, find_none h', htotal]

theorem find_hit {a : Nat} {pre post : List Rec} {body : List UCHAR} {o : Nat}
    (h : a ∉ addresses pre) :
    find a o (pre ++ .used a body :: post) = some (o + total pre, body) := by
  rw [find_append, find_none h, find, if_pos rfl]
  rfl

theorem find_mem {a : Nat} {l : List Rec} (h : a ∈ addresses l) : ∀ o : Nat,
    find a o l ≠ none := by
  induction l with
  | nil => exact absurd h List.not_mem_nil
  | cons r l ih =>
    intro o
    cases r with
    | used x body =>
      rw [find]
      split
      · exact Option.some_ne_none _
      · rename_i hne
        rcases List.mem_cons.mp h with heq | h
        · exact absurd heq.symm hne
        · exact ih h _
    | free size => exact ih h _

theorem bodyOf_none {a : Nat} {l : List Rec} (h : a ∉ addresses l) : bodyOf a l = none := by
  induction l with
  | nil => rfl
  | cons r l ih =>
    cases r with
    | used x body =>
      have hne : a ≠ x := List.ne_of_not_mem_cons h
      rw [bodyOf, if_neg (Ne.symm hne)]
      exact ih (List.not_mem_of_not_mem_cons h)
    | free size => exact ih h

theorem bodyOf_splice {a : Nat} {pre : List Rec} (mid mid' : List Rec) {post : List Rec}
    (h : a ∉ addresses mid)
    (h' : a ∉ addresses mid') :
    bodyOf a (pre ++ (mid' ++ post)) = bodyOf a (pre ++ (mid ++ post)) := by
  rw [bodyOf_append, bodyOf_append, bodyOf_append, bodyOf_append, bodyOf_none h, bodyOf_none h']

/-- The entry of an index is null if no record carries it. -/
theorem entryOf_eq_zero {b i : Nat} {l : List Rec} :
    entryOf b l i = 0 ↔ makelong i b ∉ addresses l := by
  constructor
  · intro h hmem
    cases hf : find (makelong i b) sizeofDatablockHeader l with
    | none => exact find_mem hmem _ hf
    | some p =>
      obtain ⟨x, body⟩ := p
      obtain ⟨pre, post, -, hx⟩ := find_some hf
      rw [entryOf, hf] at h
      have h0 : x = 0 := h
      simp only [sizeofDatablockHeader] at hx
      omega
  · intro h
    rw [entryOf, find_none h]
    rfl

theorem Addressed.of_perm {b : Nat} {l l' : List Rec} (h : Addressed b l)
    (hp : (addresses l').Perm (addresses l)) : Addressed b l' :=
  ⟨hp.nodup_iff.mpr h.nodup, fun a ha => h.indexed a (hp.mem_iff.mp ha)⟩

theorem IndexOk.of_perm {b : Nat} {l l' : List Rec} {first max : Nat} (h : IndexOk b l first max)
    (hp : (addresses l').Perm (addresses l)) : IndexOk b l' first max :=
  ⟨h.le, fun i hi => hp.mem_iff.mpr (h.below i hi), fun hlt hm => h.hole hlt (hp.mem_iff.mp hm),
    h.max_lt, fun i hi hm => h.le_max i hi (hp.mem_iff.mp hm)⟩

theorem addresses_free (pre post : List Rec) (size : Nat) :
    addresses (pre ++ .free size :: post) = addresses pre ++ addresses post :=
  addresses_append pre _

theorem addresses_middle (pre post : List Rec) (a : Nat) (body : List UCHAR) :
    (addresses (pre ++ .used a body :: post)).Perm (a :: (addresses pre ++ addresses post)) := by
  rw [addresses_append]
  exact List.perm_middle

/-- The key record of an index in use. -/
theorem DbInv.used {b : Nat} {db : Datablock} {l : List Rec} {chain : List Nat} {i : Nat}
    (h : DbInv b db l chain) (hi : i < keyRecordsPerDatablock) (hne : db.table i ≠ 0) :
    ∃ pre body post, l = pre ++ .used (makelong i b) body :: post ∧
      db.table i = sizeofDatablockHeader + total pre := by
  have htable := h.table i hi
  cases hf : find (makelong i b) sizeofDatablockHeader l with
  | none =>
    rw [entryOf, hf] at htable
    exact absurd htable hne
  | some p =>
    obtain ⟨x, body⟩ := p
    obtain ⟨pre, post, hl, hx⟩ := find_some hf
    rw [entryOf, hf] at htable
    exact ⟨pre, body, post, hl, htable.trans hx⟩

theorem nextHole_spec (table : KeyRecordTable) (count : Nat) : ∀ index : Nat,
    index ≤ nextHole table count index ∧ nextHole table count index ≤ index + count ∧
    (∀ i, index ≤ i → i < nextHole table count index → table i ≠ 0) ∧
    (nextHole table count index < index + count → table (nextHole table count index) = 0) := by
  induction count with
  | zero =>
    intro index
    simp only [nextHole]
    exact ⟨Nat.le_refl _, Nat.le_refl _, fun i hi hlt => absurd hlt (by omega),
      fun hlt => absurd hlt (by omega)⟩
  | succ count ih =>
    intro index
    rw [nextHole]
    split
    · rename_i hzero
      exact ⟨Nat.le_refl _, by omega, fun i hi hlt => absurd hlt (by omega), fun _ => hzero⟩
    · rename_i hne
      obtain ⟨hlo, hhi, hfull, hnull⟩ := ih (index + 1)
      refine ⟨by omega, by omega, fun i hi hlt => ?_, fun hlt => hnull (by omega)⟩
      rcases Nat.eq_or_lt_of_le hi with rfl | hi
      · exact hne
      · exact hfull i hi hlt

/-- An index is allocated for a record that becomes one in use. -/
theorem Indexed.allocIndex {b : Nat} {db : Datablock} {l l' : List Rec} (h : Indexed b db l)
    (hfree : db.firstFreeIndex < keyRecordsPerDatablock)
    (hp : (addresses l').Perm (makelong db.firstFreeIndex b :: addresses l)) :
    ∃ first max, IndexOk b l' first max ∧ rgAllocKeyRecordIndex db =
      ({ db with maxAllocatedIndex := max, firstFreeIndex := first }, db.firstFreeIndex) := by
  obtain ⟨hle, hbelow, hhole, hmax, hle_max⟩ := h.index
  have hmem : ∀ i, makelong i b ∈ addresses l' ↔
      i = db.firstFreeIndex ∨ makelong i b ∈ addresses l := by
    intro i
    rw [hp.mem_iff, List.mem_cons]
    exact or_congr_left ⟨makelong_inj, fun heq => heq ▸ rfl⟩
  have hin : ∀ i < keyRecordsPerDatablock, db.table i ≠ 0 → makelong i b ∈ addresses l := by
    intro i hi hne
    rw [h.table i hi, ne_eq, entryOf_eq_zero, not_not] at hne
    exact hne
  unfold rgAllocKeyRecordIndex
  simp only
  split
  · rename_i hgt
    refine ⟨_, _, ⟨hfree, ?_, ?_, hfree, ?_⟩, rfl⟩
    · intro i hi
      rw [hmem]
      rcases Nat.eq_or_lt_of_le (Nat.le_of_lt_succ hi) with heq | hi
      · exact Or.inl heq
      · exact Or.inr (hbelow i hi)
    · intro hlt hm
      rcases (hmem _).mp hm with heq | hm
      · exact absurd heq (Nat.succ_ne_self _)
      · have hi : db.firstFreeIndex + 1 ≤ db.maxAllocatedIndex := hle_max _ hlt hm
        omega
    · intro i hi hm
      rcases (hmem _).mp hm with heq | hm
      · exact Nat.le_of_eq heq
      · exact Nat.le_trans (hle_max i hi hm) (Nat.le_of_lt hgt)
  · rename_i hgt
    obtain ⟨hlo, hhi, hfull, hnull⟩ :=
      nextHole_spec db.table (db.maxAllocatedIndex - db.firstFreeIndex) (db.firstFreeIndex + 1)
    refine ⟨_, _, ⟨?_, ?_, ?_, hmax, ?_⟩, rfl⟩
    · omega
    · intro i hi
      rw [hmem]
      rcases Nat.lt_trichotomy i db.firstFreeIndex with hlt | heq | hlt
      · exact Or.inr (hbelow i hlt)
      · exact Or.inl heq
      · exact Or.inr (hin i (by omega) (hfull i hlt hi))
    · intro hlt hm
      rcases (hmem _).mp hm with heq | hm
      · omega
      · have hi := hle_max _ hlt hm
        have hzero := hnull (by omega)
        rw [h.table _ hlt, entryOf_eq_zero] at hzero
        exact hzero hm
    · intro i hi hm
      rcases (hmem _).mp hm with heq | hm
      · omega
      · exact hle_max i hi hm

/-- `RgFreeKeyRecordIndex` after the record was freed. -/
theorem Indexed.free {b : Nat} {db : Datablock} {pre post : List Rec} {i : Nat}
    {body : List UCHAR} (h : Indexed b db (pre ++ .used (makelong i b) body :: post))
    (hi : i < keyRecordsPerDatablock) :
    Indexed b (rgFreeKeyRecordIndex db i) (pre ++ .free (8 + body.length) :: post) := by
  obtain ⟨hle, hbelow, hhole, hmax, hle_max⟩ := h.index
  have hp := addresses_middle pre post (makelong i b) body
  have hl' := addresses_free pre post (8 + body.length)
  have hnodup := hp.nodup_iff.mp h.addressed.nodup
  obtain ⟨hnot, hnodup'⟩ := List.nodup_cons.mp hnodup
  have hmem : ∀ j, makelong j b ∈ addresses (pre ++ .used (makelong i b) body :: post) ↔
      j = i ∨ makelong j b ∈ addresses pre ++ addresses post := by
    intro j
    rw [hp.mem_iff, List.mem_cons]
    exact or_congr_left ⟨makelong_inj, fun heq => heq ▸ rfl⟩
  constructor
  · exact h.number
  · rw [← hl'] at hnodup'
    refine ⟨hnodup', fun a ha => h.addressed.indexed a (hp.mem_iff.mpr ?_)⟩
    rw [hl'] at ha
    exact List.mem_cons_of_mem _ ha
  · intro j hj
    by_cases hij : j = i
    · subst hij
      have hzero : entryOf b (pre ++ .free (8 + body.length) :: post) j = 0 := by
        rw [entryOf_eq_zero, hl']
        exact hnot
      rw [hzero]
      exact if_pos rfl
    · have hsame : (rgFreeKeyRecordIndex db i).table j = db.table j := if_neg hij
      have hother : makelong j b ∉ addresses [.used (makelong i b) body] := by
        intro hm
        exact hij (makelong_inj (List.mem_singleton.mp hm))
      rw [hsame, h.table j hj, entryOf, entryOf]
      have hfind : find (makelong j b) sizeofDatablockHeader
          (pre ++ .free (8 + body.length) :: post) =
          find (makelong j b) sizeofDatablockHeader
            (pre ++ .used (makelong i b) body :: post) :=
        find_splice [.used (makelong i b) body] [.free (8 + body.length)] rfl hother
          List.not_mem_nil
      exact congrArg (fun f => (f.map Prod.fst).getD 0) hfind.symm
  · constructor
    · simp only [rgFreeKeyRecordIndex]
      split
      · omega
      · exact hle
    · intro j hj
      simp only [rgFreeKeyRecordIndex] at hj
      have hlt : j < db.firstFreeIndex := by
        split at hj
        · omega
        · exact hj
      have hne : j ≠ i := by
        split at hj
        · omega
        · omega
      rw [hl']
      rcases (hmem j).mp (hbelow j hlt) with heq | hin
      · exact absurd heq hne
      · exact hin
    · intro hlt hm
      rw [hl'] at hm
      simp only [rgFreeKeyRecordIndex] at hlt hm
      split at hm
      · exact hnot hm
      · rename_i hgt
        rw [if_neg hgt] at hlt
        exact hhole hlt ((hmem _).mpr (Or.inr hm))
    · exact hmax
    · intro j hj hm
      rw [hl'] at hm
      exact hle_max j hj ((hmem j).mpr (Or.inr hm))

end SdkTools.Registry
