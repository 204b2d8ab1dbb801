import SdkTools.Registry.IndexSteps

/-!
# Key records added, freed, written and replaced

Each of these keeps the invariant of the datablock and the contents of the other
key records.
-/

namespace SdkTools.Registry

set_option autoImplicit false

/-- The caller of the allocation fills in a key record from its record size on. -/
def Datablock.writeKeyRecord (db : Datablock) (index : Nat) (data : List UCHAR) : Datablock :=
  let keyRecord := db.table index
  { db with
    mem := fun i =>
      if keyRecord + 8 ≤ i ∧ i < keyRecord + dwordAt db.mem keyRecord then
        data.getD (i - (keyRecord + 8)) (db.mem i)
      else db.mem i }

theorem makelong_lt {i b : Nat} (hi : i < keyRecordsPerDatablock) (hb : b < 0xFFFF) :
    makelong i b < REG_NULL := by
  simp only [keyRecordsPerDatablock] at hi
  simp only [makelong, REG_NULL]
  omega

theorem not_mem_addresses {a a' : Nat} {body : List UCHAR} (h : a' ≠ a) :
    a' ∉ addresses [.used a body] := by
  intro hm
  exact h (List.mem_singleton.mp hm)

theorem bodyOf_replaced {a a' : Nat} {body : List UCHAR} {r : Rec} {pre post : List Rec}
    (h : a' ≠ a) (hr : a' ∉ addresses [r]) :
    bodyOf a' (pre ++ .used a body :: post) = bodyOf a' (pre ++ r :: post) :=
  bodyOf_splice [r] [.used a body] hr (not_mem_addresses h)

theorem bodyOf_hit {a : Nat} {body : List UCHAR} {pre post : List Rec}
    (h : a ∉ addresses pre) : bodyOf a (pre ++ .used a body :: post) = some body := by
  rw [bodyOf_append, bodyOf_none h, bodyOf, if_pos rfl]
  rfl

/-- The address of a record is nowhere else in the block. -/
theorem Addressed.not_mem {b a : Nat} {pre post : List Rec} {body : List UCHAR}
    (h : Addressed b (pre ++ .used a body :: post)) :
    a ∉ addresses pre ∧ a ∉ addresses post := by
  have hnodup := (addresses_middle pre post a body).nodup_iff.mp h.nodup
  have hnot := (List.nodup_cons.mp hnodup).1
  exact ⟨fun hm => hnot (List.mem_append_left _ hm), fun hm => hnot (List.mem_append_right _ hm)⟩

/-- Freeing the key record of an index, and the index. -/
theorem DbInv.freeRecord {b : Nat} {db : Datablock} {l : List Rec} {chain : List Nat} {i : Nat}
    (h : DbInv b db l chain) (hi : i < keyRecordsPerDatablock) (hne : db.table i ≠ 0) :
    ∃ l' chain', DbInv b (rgFreeKeyRecordIndex (rgFreeKeyRecord db (db.table i)) i) l' chain' ∧
      ∀ a, a ≠ makelong i b → bodyOf a l' = bodyOf a l := by
  obtain ⟨pre, body, post, hl, ho⟩ := h.used hi hne
  subst hl
  have hb := h.block.free
  have hx := h.indexed.free hi
  rw [ho]
  refine ⟨_, _, ⟨hx.number, hb.small, hb.aligned, hb.tiles, hb.linked, hb.visits, hb.freeBytes,
    hx.addressed, hx.table, hx.index⟩, fun a ha => ?_⟩
  exact (bodyOf_replaced ha List.not_mem_nil).symm

theorem freeOffsets_used_middle (pre post : List Rec) (a : Nat) (body : List UCHAR) (o : Nat) :
    freeOffsets o (pre ++ .used a body :: post) =
      freeOffsets o pre ++ freeOffsets (o + total pre + (Rec.used a body).size) post := by
  rw [freeOffsets_append]
  rfl

theorem freeTotal_used_middle (pre post : List Rec) (a : Nat) (body : List UCHAR) :
    freeTotal (pre ++ .used a body :: post) = freeTotal pre + freeTotal post := by
  rw [freeTotal_append]
  exact congrArg (freeTotal pre + ·) (Nat.zero_add _)

/-- The table does not depend on what is in the records. -/
theorem entryOf_body {b a i : Nat} {pre post : List Rec} {body body' : List UCHAR}
    (h : body'.length = body.length) :
    entryOf b (pre ++ .used a body' :: post) i = entryOf b (pre ++ .used a body :: post) i := by
  simp only [entryOf, find_append, find, h]
  cases find (makelong i b) sizeofDatablockHeader pre with
  | none =>
    split
    · rfl
    · rfl
  | some p => rfl

/-- Filling in a key record. -/
theorem DbInv.write {b : Nat} {db : Datablock} {l : List Rec} {chain : List Nat} {i : Nat}
    {data : List UCHAR} (h : DbInv b db l chain) (hi : i < keyRecordsPerDatablock)
    (hne : db.table i ≠ 0) :
    ∃ l', DbInv b (db.writeKeyRecord i data) l' chain ∧
      ∀ a, a ≠ makelong i b → bodyOf a l' = bodyOf a l := by
  obtain ⟨pre, body, post, hl, ho⟩ := h.used hi hne
  subst hl
  have hused := (tiles_append.mp h.tiles).2.1
  have hblock := h.block
  rw [freeOffsets_used_middle, freeTotal_used_middle] at hblock
  have hsize := hused.size_eq
  have hm : ∀ j, j < sizeofDatablockHeader + total pre + 8 ∨
      sizeofDatablockHeader + total pre + (Rec.used (makelong i b) body).size ≤ j →
      (db.writeKeyRecord i data).mem j = db.mem j := by
    intro j hj
    simp only [Datablock.writeKeyRecord, ho, hsize]
    rw [if_neg (by omega)]
  have haddress : dwordAt (db.writeKeyRecord i data).mem (sizeofDatablockHeader + total pre + 4) =
      makelong i b := by
    rw [← hused.2.1]
    exact dwordAt_congr fun k hk => hm _ (by omega)
  have hb := hblock.put (fun j hj => hm j (by omega)) haddress hused.2.2.1
  have hsame : addresses (pre ++ .used (makelong i b) body :: post) =
      addresses (pre ++ .used (makelong i b) (bytesAt (db.writeKeyRecord i data).mem
        (sizeofDatablockHeader + total pre + 8)
        ((Rec.used (makelong i b) body).size - 8)) :: post) := by
    rw [addresses_append, addresses_append]
    rfl
  have hlen : (bytesAt (db.writeKeyRecord i data).mem (sizeofDatablockHeader + total pre + 8)
      ((Rec.used (makelong i b) body).size - 8)).length = body.length := by
    rw [length_bytesAt, Rec.size]
    omega
  refine ⟨_, ⟨h.number, hb.small, hb.aligned, hb.tiles, hb.linked, hb.visits, hb.freeBytes,
    h.addressed.of_eq hsame.symm, fun j hj => (h.table j hj).trans (entryOf_body hlen).symm,
    h.index.of_eq hsame.symm⟩, fun a ha => ?_⟩
  exact bodyOf_replaced ha (not_mem_addresses ha)

/-- A record that was taken from the free list gets the first free index. -/
theorem Pending.add {b : Nat} {db : Datablock} {pre rest : List Rec} {chain : List Nat}
    {size : Nat} (h : Pending b db pre size rest chain)
    (hfree : db.firstFreeIndex < keyRecordsPerDatablock) :
    ∃ l', DbInv b (db.addKeyRecord b (sizeofDatablockHeader + total pre)) l' chain ∧
      ∀ a ∈ addresses pre ++ addresses rest,
        bodyOf a l' = bodyOf a (pre ++ .free size :: rest) := by
  have hlt := makelong_lt hfree h.indexed.number
  have hhole := h.indexed.index.hole hfree
  rw [addresses_free] at hhole
  have hb := h.block.put
    (m := setDword db.mem (sizeofDatablockHeader + total pre + 4) (makelong db.firstFreeIndex b))
    (fun j hj => setDword_ne (by
      have hlo := (tiles_append.mp h.block.tiles).2.1.le_size
      omega))
    (dwordAt_setDword (Nat.lt_trans hlt (by decide))) (Nat.ne_of_lt hlt)
  have hlen : 8 + ((Rec.free size).size - 8) = size := by
    have hlo := (tiles_append.mp h.block.tiles).2.1.le_size
    simp only [Rec.size] at hlo ⊢
    omega
  generalize hbody : bytesAt (setDword db.mem (sizeofDatablockHeader + total pre + 4)
    (makelong db.firstFreeIndex b)) (sizeofDatablockHeader + total pre + 8)
    ((Rec.free size).size - 8) = body at hb
  have hsize : 8 + body.length = size := by
    rw [← hbody, length_bytesAt, hlen]
  have hp : (addresses (pre ++ .used (makelong db.firstFreeIndex b) body :: rest)).Perm
      (makelong db.firstFreeIndex b :: addresses (pre ++ .free size :: rest)) := by
    rw [addresses_free]
    exact addresses_middle _ _ _ _
  obtain ⟨first, max, hindex, halloc⟩ := h.indexed.allocIndex hfree hp
  have hadd : db.addKeyRecord b (sizeofDatablockHeader + total pre) =
      { db with
        mem := setDword db.mem (sizeofDatablockHeader + total pre + 4)
          (makelong db.firstFreeIndex b)
        table := storeEntry db.table db.firstFreeIndex (sizeofDatablockHeader + total pre)
        maxAllocatedIndex := max
        firstFreeIndex := first } := by
    simp only [Datablock.addKeyRecord, halloc]
  rw [hadd]
  refine ⟨_, ⟨h.indexed.number, hb.small, hb.aligned, hb.tiles, hb.linked, hb.visits,
    hb.freeBytes, ⟨hp.nodup_iff.mpr ?_, ?_⟩, ?_, hindex⟩, fun a ha => ?_⟩
  · rw [addresses_free]
    have hnodup := h.indexed.addressed.nodup
    rw [addresses_free] at hnodup
    exact List.nodup_cons.mpr ⟨hhole, hnodup⟩
  · intro a ha
    rcases List.mem_cons.mp (hp.mem_iff.mp ha) with heq | ha
    · exact ⟨db.firstFreeIndex, hfree, heq⟩
    · exact h.indexed.addressed.indexed a ha
  · intro j hj
    by_cases hij : j = db.firstFreeIndex
    · subst hij
      rw [entryOf, find_hit fun hm => hhole (List.mem_append_left _ hm)]
      exact if_pos rfl
    · have hsame : storeEntry db.table db.firstFreeIndex (sizeofDatablockHeader + total pre) j =
          db.table j := if_neg hij
      have hfind : find (makelong j b) sizeofDatablockHeader
          (pre ++ .used (makelong db.firstFreeIndex b) body :: rest) =
          find (makelong j b) sizeofDatablockHeader (pre ++ .free size :: rest) :=
        find_splice [.free size] [.used (makelong db.firstFreeIndex b) body]
          (congrArg (· + 0) hsize) List.not_mem_nil
          (not_mem_addresses fun heq => hij (makelong_inj heq))
      refine hsame.trans ?_
      rw [h.indexed.table j hj, entryOf, entryOf, hfind]
  · exact bodyOf_replaced (fun heq => hhole (heq ▸ ha)) List.not_mem_nil

/-- A record that was taken from the free list takes the place of another one,
which is freed. -/
theorem Pending.replace {b : Nat} {db : Datablock} {front back rest : List Rec}
    {chain : List Nat} {size i : Nat} {body : List UCHAR}
    (h : Pending b db (front ++ .used (makelong i b) body :: back) size rest chain)
    (hi : i < keyRecordsPerDatablock)
    (hlo : 8 ≤ dwordAt db.mem (sizeofDatablockHeader + total front + 8))
    (hhi : dwordAt db.mem (sizeofDatablockHeader + total front + 8) ≤ size) :
    ∃ l' chain', DbInv b (db.replaceKeyRecord i (sizeofDatablockHeader +
        total (front ++ .used (makelong i b) body :: back))) l' chain' ∧
      ∀ a, a ≠ makelong i b → bodyOf a l' =
        bodyOf a (front ++ .used (makelong i b) body :: back ++ .free size :: rest) := by
  generalize hpre : front ++ .used (makelong i b) body :: back = pre at h
  have hlt := makelong_lt hi h.indexed.number
  have hassoc : ∀ r s : Rec, (front ++ r :: back) ++ s :: rest = front ++ r :: (back ++ s :: rest) := by
    intro r s
    rw [List.append_assoc, List.cons_append]
  have haddressed := h.indexed.addressed
  rw [← hpre, hassoc] at haddressed
  obtain ⟨hfront, hback⟩ := haddressed.not_mem
  rw [addresses_append] at hback
  have hnot : makelong i b ∉ addresses (front ++ .free (8 + body.length) :: back) := by
    rw [addresses_free]
    intro hm
    rcases List.mem_append.mp hm with hm | hm
    · exact hfront hm
    · exact hback (List.mem_append_left _ hm)
  have htiles := h.block.tiles
  rw [← hpre, hassoc] at htiles
  have hold := (tiles_append.mp htiles).2.1
  have htable : db.table i = sizeofDatablockHeader + total front := by
    rw [h.indexed.table i hi, ← hpre, hassoc, entryOf, find_hit hfront]
    rfl
  have htotal : total pre = total front + (8 + body.length) + total back := by
    rw [← hpre, total_append, total_cons, Rec.size]
    omega
  generalize hr : dwordAt db.mem (sizeofDatablockHeader + total front + 8) = recordSize at *
  have hm : ∀ j, j < sizeofDatablockHeader + total pre + 4 ∨
      sizeofDatablockHeader + total pre + (Rec.free size).size ≤ j →
      moveMemory db.mem (sizeofDatablockHeader + total pre + 4)
        (sizeofDatablockHeader + total front + 4) (recordSize - 4) j = db.mem j := by
    intro j hj
    simp only [Rec.size] at hj
    exact moveMemory_out (by omega)
  have haddress : dwordAt (moveMemory db.mem (sizeofDatablockHeader + total pre + 4)
      (sizeofDatablockHeader + total front + 4) (recordSize - 4))
      (sizeofDatablockHeader + total pre + 4) = makelong i b := by
    rw [← hold.2.1]
    exact dwordAt_congr fun k hk => moveMemory_in (by omega)
  generalize hmoved : moveMemory db.mem (sizeofDatablockHeader + total pre + 4)
    (sizeofDatablockHeader + total front + 4) (recordSize - 4) = m at hm haddress
  have hput := h.block.put hm haddress (Nat.ne_of_lt hlt)
  generalize hnew : bytesAt m (sizeofDatablockHeader + total pre + 8)
    ((Rec.free size).size - 8) = moved at hput
  have hfree_size := (tiles_append.mp h.block.tiles).2.1.le_size
  have hsize : 8 + moved.length = size := by
    rw [← hnew, length_bytesAt]
    simp only [Rec.size] at hfree_size ⊢
    omega
  have hlist : ∀ r : Rec, pre ++ r :: rest =
      front ++ .used (makelong i b) body :: (back ++ r :: rest) := by
    intro r
    rw [← hpre, hassoc]
  rw [hlist] at hput
  have hb := hput.free
  rw [← hassoc] at hb
  have hreplace : db.replaceKeyRecord i (sizeofDatablockHeader + total pre) =
      { rgFreeKeyRecord { db with mem := m } (sizeofDatablockHeader + total front) with
        table := storeEntry db.table i (sizeofDatablockHeader + total pre) } := by
    simp only [Datablock.replaceKeyRecord, htable, hr, hmoved]
    rfl
  have hp : (addresses ((front ++ .free (8 + body.length) :: back) ++
      .used (makelong i b) moved :: rest)).Perm (addresses (pre ++ .free size :: rest)) := by
    refine (addresses_middle _ _ _ _).trans ?_
    rw [addresses_free, addresses_free, ← hpre]
    exact ((addresses_middle front back (makelong i b) body).append_right (addresses rest)).symm
  rw [hreplace]
  refine ⟨_, _, ⟨h.indexed.number, hb.small, hb.aligned, hb.tiles, hb.linked, hb.visits,
    hb.freeBytes, h.indexed.addressed.of_perm hp, fun j hj => ?_, h.indexed.index.of_perm hp⟩,
    fun a ha => ?_⟩
  · by_cases hij : j = i
    · subst hij
      rw [entryOf, find_hit hnot]
      have hto : total (front ++ .free (8 + body.length) :: back) = total pre := by
        rw [htotal, total_append, total_cons, Rec.size]
        omega
      rw [hto]
      exact if_pos rfl
    · have hne : makelong j b ≠ makelong i b := fun heq => hij (makelong_inj heq)
      have hsame : storeEntry db.table i (sizeofDatablockHeader + total pre) j = db.table j :=
        if_neg hij
      have hto : total [Rec.used (makelong i b) moved] = total [Rec.free size] :=
        congrArg (· + 0) hsize
      refine hsame.trans ?_
      rw [h.indexed.table j hj, entryOf, entryOf, ← hpre]
      have hto_new : find (makelong j b) sizeofDatablockHeader
          ((front ++ .free (8 + body.length) :: back) ++ .used (makelong i b) moved :: rest) =
          find (makelong j b) sizeofDatablockHeader
            ((front ++ .free (8 + body.length) :: back) ++ .free size :: rest) :=
        find_splice [.free size] [.used (makelong i b) moved] hto List.not_mem_nil
          (not_mem_addresses hne)
      have hto_old : find (makelong j b) sizeofDatablockHeader
          (front ++ .free (8 + body.length) :: (back ++ .free size :: rest)) =
          find (makelong j b) sizeofDatablockHeader
            (front ++ .used (makelong i b) body :: (back ++ .free size :: rest)) :=
        find_splice [.used (makelong i b) body] [.free (8 + body.length)] rfl
          (not_mem_addresses hne) List.not_mem_nil
      rw [hto_new, hassoc, hassoc, hto_old]
  · calc bodyOf a ((front ++ .free (8 + body.length) :: back) ++
          .used (makelong i b) moved :: rest)
      _ = bodyOf a ((front ++ .free (8 + body.length) :: back) ++ .free size :: rest) :=
        bodyOf_replaced ha List.not_mem_nil
      _ = bodyOf a (front ++ .free (8 + body.length) :: (back ++ .free size :: rest)) := by
        rw [hassoc]
      _ = bodyOf a (front ++ .used (makelong i b) body :: (back ++ .free size :: rest)) :=
        (bodyOf_replaced ha List.not_mem_nil).symm
      _ = bodyOf a (pre ++ .free size :: rest) := by rw [hlist]

end SdkTools.Registry
