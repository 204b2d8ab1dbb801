import SdkTools.Registry.RecordAlloc

/-!
# Records that change their kind

A record that is put to use, freed or written changes in its own bytes only, so
the rest of the block and its free list stay as they are.
-/

namespace SdkTools.Registry

set_option autoImplicit false

def bytesAt (m : Buffer) (offset byteCount : Nat) : List UCHAR :=
  (List.range byteCount).map fun k => m (offset + k)

@[simp] theorem length_bytesAt (m : Buffer) (o n : Nat) : (bytesAt m o n).length = n := by
  simp only [bytesAt, List.length_map, List.length_range]

theorem getElem_bytesAt {m : Buffer} {o n k : Nat} (h : k < (bytesAt m o n).length) :
    (bytesAt m o n)[k] = m (o + k) := by
  simp only [bytesAt, List.getElem_map, List.getElem_range]

theorem holds_used {m : Buffer} {o a n : Nat} (hsize : dwordAt m o = n)
    (haddress : dwordAt m (o + 4) = a) (ha : a ≠ REG_NULL) (hn : 12 ≤ n) :
    Holds m o (.used a (bytesAt m (o + 8) (n - 8))) := by
  refine ⟨?_, haddress, ha, ?_, fun k hk => (getElem_bytesAt hk).symm⟩
  · rw [length_bytesAt]
    omega
  · rw [length_bytesAt]
    omega

theorem Holds.body_eq {m : Buffer} {o a : Nat} {body : List UCHAR}
    (h : Holds m o (.used a body)) : bytesAt m (o + 8) (dwordAt m o - 8) = body := by
  obtain ⟨hsize, -, -, -, hbody⟩ := h
  have hlen : dwordAt m o - 8 = body.length := by omega
  rw [hlen]
  apply List.ext_getElem (length_bytesAt m _ _)
  intro k hk hk'
  rw [getElem_bytesAt hk]
  exact hbody k hk'

/-- The records in the middle of a block may change into others. -/
theorem Tiles.splice {m m' : Buffer} {pre : List Rec} (mid mid' : List Rec) {post : List Rec}
    {o e : Nat} (h : Tiles m o (pre ++ (mid ++ post)) e)
    (hm : ∀ i, i < o + total pre ∨ o + total pre + total mid ≤ i → m' i = m i)
    (hmid : Tiles m' (o + total pre) mid' (o + total pre + total mid)) :
    Tiles m' o (pre ++ (mid' ++ post)) e := by
  rw [tiles_append, tiles_append] at h ⊢
  obtain ⟨hpre, -, hpost⟩ := h
  have hend := hmid.end_eq
  rw [hend] at hmid hpost hm
  refine ⟨hpre.congr fun i _ hi => hm i (Or.inl hi), hmid, ?_⟩
  exact hpost.congr fun i hi _ => hm i (Or.inr hi)

/-- Free records before and behind the middle keep their links. -/
theorem Tiles.links {m m' : Buffer} {pre : List Rec} (mid : List Rec) {post : List Rec} {o e : Nat}
    (h : Tiles m o (pre ++ (mid ++ post)) e)
    (hm : ∀ i, i < o + total pre ∨ o + total pre + total mid ≤ i → m' i = m i) {x : Nat}
    (hx : x ∈ freeOffsets o pre ++ freeOffsets (o + total pre + total mid) post) :
    dwordAt m' (x + 8) = dwordAt m (x + 8) := by
  rw [tiles_append, tiles_append] at h
  obtain ⟨hpre, -, hpost⟩ := h
  rcases List.mem_append.mp hx with hx | hx
  · have hin := hpre.freeOffset hx
    exact dwordAt_congr fun k hk => hm _ (by omega)
  · have hin := hpost.freeOffset hx
    exact dwordAt_congr fun k hk => hm _ (by omega)

/-- A record that is not in the free list gets an address and new contents. -/
theorem BlockOk.put {db : Datablock} {pre rest : List Rec} {chain : List Nat} {r : Rec} {a : Nat}
    {m : Buffer}
    (h : BlockOk db (pre ++ r :: rest) chain
      (freeOffsets sizeofDatablockHeader pre ++
        freeOffsets (sizeofDatablockHeader + total pre + r.size) rest)
      (freeTotal pre + freeTotal rest))
    (hm : ∀ i, i < sizeofDatablockHeader + total pre + 4 ∨
      sizeofDatablockHeader + total pre + r.size ≤ i → m i = db.mem i)
    (haddress : dwordAt m (sizeofDatablockHeader + total pre + 4) = a) (ha : a ≠ REG_NULL) :
    let l := pre ++
      .used a (bytesAt m (sizeofDatablockHeader + total pre + 8) (r.size - 8)) :: rest
    BlockOk { db with mem := m } l chain (freeOffsets sizeofDatablockHeader l) (freeTotal l) := by
  have hr := (tiles_append.mp h.tiles).2.1
  have hlo := hr.le_size
  have hsize : dwordAt m (sizeofDatablockHeader + total pre) = r.size := by
    rw [← hr.size_eq]
    exact dwordAt_congr fun k hk => hm _ (by omega)
  have hlen : 8 + (r.size - 8) = r.size := by omega
  have hsame : ∀ i, i < sizeofDatablockHeader + total pre ∨
      sizeofDatablockHeader + total pre + total [r] ≤ i → m i = db.mem i := by
    intro i hi
    have hone : total [r] = r.size := rfl
    exact hm i (by omega)
  constructor
  · exact h.small
  · exact h.aligned
  · refine h.tiles.splice [r] [.used a _] hsame ⟨holds_used hsize haddress ha hlo, ?_⟩
    have hused : Rec.size (.used a
        (bytesAt m (sizeofDatablockHeader + total pre + 8) (r.size - 8))) = r.size := by
      rw [Rec.size, length_bytesAt, hlen]
    rw [hused]
    exact rfl
  · exact h.linked.congr fun x hx => h.tiles.links [r] hsame (h.visits.mem_iff.mp hx)
  · rw [freeOffsets_append]
    simp only [freeOffsets, length_bytesAt, hlen]
    exact h.visits
  · rw [freeTotal_append]
    have hused : freeTotal
        (.used a (bytesAt m (sizeofDatablockHeader + total pre + 8) (r.size - 8)) :: rest) =
        freeTotal rest := Nat.zero_add _
    rw [hused]
    exact h.freeBytes

/-- `RgFreeKeyRecord` puts a key record at the front of the free list. -/
theorem BlockOk.free {db : Datablock} {pre rest : List Rec} {chain : List Nat} {a : Nat}
    {body : List UCHAR}
    (h : BlockOk db (pre ++ .used a body :: rest) chain
      (freeOffsets sizeofDatablockHeader (pre ++ .used a body :: rest))
      (freeTotal (pre ++ .used a body :: rest))) :
    let l := pre ++ .free (8 + body.length) :: rest
    BlockOk (rgFreeKeyRecord db (sizeofDatablockHeader + total pre)) l
      ((sizeofDatablockHeader + total pre) :: chain) (freeOffsets sizeofDatablockHeader l)
      (freeTotal l) := by
  have hused := (tiles_append.mp h.tiles).2.1
  have hrest := (tiles_append.mp h.tiles).2.2.le
  have hsmall := h.small
  obtain ⟨hsize, -, -, hbody, -⟩ := hused
  have hfirst : db.firstFreeOffset < 2 ^ 32 := by
    cases hc : chain with
    | nil =>
      have hnull := h.linked
      rw [hc] at hnull
      rw [show db.firstFreeOffset = REG_NULL from hnull]
      decide
    | cons x chain =>
      have hlinked := h.linked
      rw [hc] at hlinked
      have hx := h.tiles.freeOffset (h.visits.mem_iff.mp (hc ▸ List.mem_cons_self))
      rw [hlinked.1]
      omega
  have hsame : ∀ i, i < sizeofDatablockHeader + total pre ∨
      sizeofDatablockHeader + total pre + total [.used a body] ≤ i →
      (rgFreeKeyRecord db (sizeofDatablockHeader + total pre)).mem i = db.mem i := by
    intro i hi
    have hone : total [Rec.used a body] = 8 + body.length := rfl
    simp only [rgFreeKeyRecord]
    rw [setDword_ne (by omega), setDword_ne (by omega)]
  rw [freeOffsets_append] at h
  constructor
  · exact h.small
  · exact h.aligned
  · refine h.tiles.splice [.used a body] [.free (8 + body.length)] hsame
      ⟨⟨?_, ?_, by omega⟩, rfl⟩
    · simp only [rgFreeKeyRecord]
      rw [dwordAt_setDword_ne (by omega), dwordAt_setDword_ne (by omega), hsize]
    · simp only [rgFreeKeyRecord]
      rw [dwordAt_setDword_ne (by omega), dwordAt_setDword (by decide)]
  · refine ⟨rfl, ?_, ?_⟩
    · simp only [REG_NULL]
      simp only [Rec.size] at hrest
      omega
    · have hnext : dwordAt (rgFreeKeyRecord db (sizeofDatablockHeader + total pre)).mem
          (sizeofDatablockHeader + total pre + 8) = db.firstFreeOffset := dwordAt_setDword hfirst
      rw [hnext]
      exact h.linked.congr fun x hx =>
        h.tiles.links [.used a body] hsame (h.visits.mem_iff.mp hx)
  · rw [freeOffsets_append]
    exact (h.visits.cons _).trans List.perm_middle.symm
  · have hbytes := h.freeBytes
    simp only [rgFreeKeyRecord, hsize]
    rw [hbytes, freeTotal_append, freeTotal_append]
    simp only [freeTotal, List.map_cons, Rec.freeSize, List.sum_cons]
    omega

end SdkTools.Registry
