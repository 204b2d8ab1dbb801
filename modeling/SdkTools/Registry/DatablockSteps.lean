import SdkTools.Registry.DatablockFile

/-!
# What a call keeps in a datablock

Every call leaves the invariant of a datablock and the bytes of the key records
that it is not about.
-/

namespace SdkTools.Registry

set_option autoImplicit false

theorem DbInv.keyRecord_eq {b : Nat} {db : Datablock} {l : List Rec} {chain : List Nat} {i : Nat}
    (h : DbInv b db l chain) (hi : i < keyRecordsPerDatablock) :
    keyRecord db i = bodyOf (makelong i b) l := by
  unfold keyRecord
  by_cases hzero : db.table i = 0
  · have hnot : makelong i b ∉ addresses l := by
      rw [← entryOf_eq_zero, ← h.table i hi]
      exact hzero
    rw [if_pos hzero, bodyOf_none hnot]
  · obtain ⟨pre, body, post, hl, ho⟩ := h.used hi hzero
    subst hl
    have hused := (tiles_append.mp h.tiles).2.1
    rw [if_neg hzero, ho, hused.body_eq, bodyOf_hit h.addressed.not_mem.1]

theorem DbInv.inUse {b : Nat} {db : Datablock} {l : List Rec} {chain : List Nat} {i : Nat}
    (h : DbInv b db l chain) (hi : i < keyRecordsPerDatablock) :
    db.table i ≠ 0 ↔ makelong i b ∈ addresses l := by
  rw [h.table i hi, ne_eq, entryOf_eq_zero, not_not]

theorem IndexOk.first_eq {b first max first' max' : Nat} {l l' : List Rec}
    (h : IndexOk b l first max) (h' : IndexOk b l' first' max')
    (heq : ∀ i, makelong i b ∈ addresses l' ↔ makelong i b ∈ addresses l) : first' = first := by
  rcases Nat.lt_trichotomy first' first with hlt | hfirst | hlt
  · have hin := h.below first' hlt
    exact absurd ((heq _).mpr hin) (h'.hole (Nat.lt_of_lt_of_le hlt h.le))
  · exact hfirst
  · have hin := h'.below first hlt
    exact absurd ((heq _).mp hin) (h.hole (Nat.lt_of_lt_of_le hlt h'.le))

/-- A call about the key record of `index`, if any, keeps the datablock `b`. -/
structure Preserves (b : Nat) (db db' : Datablock) (index : Option Nat) : Prop where
  inv : ∃ l chain, DbInv b db' l chain
  kept : ∀ i < keyRecordsPerDatablock, db.table i ≠ 0 → some i ≠ index →
    keyRecord db' i = keyRecord db i

section

variable {b : Nat} {db : Datablock} {l : List Rec} {chain : List Nat} {i length : Nat}

theorem DbInv.preserves {db' : Datablock} {l' : List Rec} {chain' : List Nat} {index : Option Nat}
    (h : DbInv b db l chain) (h' : DbInv b db' l' chain')
    (hbody : ∀ i < keyRecordsPerDatablock, makelong i b ∈ addresses l → some i ≠ index →
      bodyOf (makelong i b) l' = bodyOf (makelong i b) l) : Preserves b db db' index := by
  refine ⟨⟨l', chain', h'⟩, fun i hi hne hindex => ?_⟩
  rw [h'.keyRecord_eq hi, h.keyRecord_eq hi]
  exact hbody i hi ((h.inUse hi).mp hne) hindex

theorem DbInv.preserves_other {db' : Datablock} {l' : List Rec} {chain' : List Nat}
    (h : DbInv b db l chain) (h' : DbInv b db' l' chain')
    (hbody : ∀ a, a ≠ makelong i b → bodyOf a l' = bodyOf a l) : Preserves b db db' (some i) := by
  refine h.preserves h' fun j _ _ hj => hbody _ fun heq => hj ?_
  rw [makelong_inj heq]

theorem DbInv.refl (h : DbInv b db l chain) (index : Option Nat) : Preserves b db db index :=
  h.preserves h fun _ _ _ _ => rfl

theorem DbInv.compact_preserves (h : DbInv b db l chain) :
    Preserves b db (rgCompactDatablock db) none := by
  rcases h.compact with ⟨-, -, -, heq⟩ | ⟨-, -, hinv⟩
  · rw [heq]
    exact h.refl none
  · exact h.preserves hinv fun _ _ _ _ => bodyOf_packed _ l _

/-- Extending a datablock moves its key records at most. -/
theorem DbInv.extendDatablock (h : DbInv b db l chain) (hlen : length < 2 ^ 30)
    (reAlloc : Option Buffer) :
    ∃ l' chain', DbInv b (rgExtendDatablock db length reAlloc).1 l' chain' ∧
      addresses l' = addresses l ∧ ∀ a, bodyOf a l' = bodyOf a l := by
  have hsame : (rgExtendDatablock db length reAlloc).1 = db →
      ∃ l' chain', DbInv b (rgExtendDatablock db length reAlloc).1 l' chain' ∧
        addresses l' = addresses l ∧ ∀ a, bodyOf a l' = bodyOf a l := by
    intro heq
    rw [heq]
    exact ⟨l, chain, h, rfl, fun _ => rfl⟩
  by_cases henough : db.freeBytes ≥ length
  · apply hsame
    rw [rgExtendDatablock, if_pos henough]
  · by_cases hmax : rgAlignBlockSize ((db.blockSize + length - db.freeBytes) % 2 ^ 32) ≤
        maximumDatablockSize
    · cases reAlloc with
      | none =>
        apply hsame
        simp only [rgExtendDatablock, if_neg henough]
        split
        · rfl
        · rfl
      | some behind =>
        obtain ⟨db', size, heq, -, hinv⟩ :=
          h.grow behind hlen (Nat.lt_of_not_le henough) hmax
        rw [heq]
        exact ⟨_, _, hinv, addresses_packed l size, fun a => bodyOf_packed a l size⟩
    · apply hsame
      simp only [rgExtendDatablock, if_neg henough]
      rw [if_pos (Nat.lt_of_not_le hmax)]

/-- A record from the datablock gets an index, or nothing changes. -/
theorem DbInv.allocAdd (h : DbInv b db l chain) (hlo : 12 ≤ length)
    (hfree : db.firstFreeIndex < keyRecordsPerDatablock) :
    (∃ e, rgAllocKeyRecordFromDatablock db length = (db, .error e)) ∨
    ∃ db' offset l' chain', rgAllocKeyRecordFromDatablock db length = (db', .ok offset) ∧
      DbInv b (db'.addKeyRecord b offset) l' chain' ∧
      ∀ a ∈ addresses l, bodyOf a l' = bodyOf a l := by
  rcases h.allocFrom hlo with ⟨-, hfail⟩ | ⟨db', size, rest, chain', -, hrest, hok, hpending⟩
  · exact Or.inl ⟨_, hfail⟩
  · right
    have haddresses : addresses (usedOf l ++ .free size :: rest) = addresses l := by
      rw [addresses_free, addresses_used, hrest, List.append_nil]
    have hfirst : db'.firstFreeIndex = db.firstFreeIndex :=
      h.index.first_eq hpending.indexed.index fun i => by rw [haddresses]
    obtain ⟨l', hinv, hbodies⟩ := hpending.add (hfirst ▸ hfree)
    refine ⟨db', _, l', chain', hok, hinv, fun a ha => ?_⟩
    rw [hbodies a (by rw [← addresses_free _ _ size, haddresses]; exact ha)]
    have hnone : bodyOf a rest = none := bodyOf_none (by rw [hrest]; exact List.not_mem_nil)
    rw [bodyOf_append, bodyOf_used, bodyOf, hnone]
    exact Option.or_none

/-- A pass of `RgAllocKeyRecord` on a datablock that has an index left. -/
theorem DbInv.tryDatablock (h : DbInv b db l chain) (hlo : 12 ≤ length) (hhi : length < 2 ^ 30)
    (hfree : db.firstFreeIndex < keyRecordsPerDatablock) (extend : Bool)
    (reAlloc : Option Buffer) :
    (∃ db' e, Registry.tryDatablock extend length reAlloc db = (db', .error e) ∧
      Preserves b db db' none) ∨
    ∃ db' offset, Registry.tryDatablock extend length reAlloc db = (db', .ok offset) ∧
      Preserves b db (db'.addKeyRecord b offset) none := by
  cases extend with
  | false =>
    rcases h.allocAdd hlo hfree with ⟨e, hfail⟩ | ⟨db', offset, l', chain', hok, hinv, hbodies⟩
    · exact Or.inl ⟨db, e, hfail, h.refl none⟩
    · exact Or.inr ⟨db', offset, hok, h.preserves hinv fun i _ hi _ => hbodies _ hi⟩
  | true =>
    obtain ⟨l₁, chain₁, hinv₁, haddresses, hbodies₁⟩ := h.extendDatablock hhi reAlloc
    have hfirst : (rgExtendDatablock db length reAlloc).1.firstFreeIndex = db.firstFreeIndex :=
      h.index.first_eq hinv₁.index fun i => by rw [haddresses]
    have hpres₁ : Preserves b db (rgExtendDatablock db length reAlloc).1 none :=
      h.preserves hinv₁ fun _ _ _ _ => hbodies₁ _
    simp only [Registry.tryDatablock, if_true]
    split
    · rename_i db' e heq
      rw [heq] at hpres₁
      exact Or.inl ⟨db', e, rfl, hpres₁⟩
    · rename_i db' heq
      rw [heq] at hinv₁ hfirst hpres₁
      rcases hinv₁.allocAdd hlo (hfirst ▸ hfree) with
        ⟨e, hfail⟩ | ⟨db₂, offset, l', chain', hok, hinv, hbodies⟩
      · exact Or.inl ⟨db', e, hfail, hpres₁⟩
      · refine Or.inr ⟨db₂, offset, hok, h.preserves hinv fun i _ hi _ => ?_⟩
        rw [hbodies _ (haddresses ▸ hi), hbodies₁]

/-- The record size is part of what a record keeps when it is moved. -/
theorem Holds.recordSize_eq {m m' : Buffer} {o o' a : Nat} {body : List UCHAR}
    (h : Holds m o (.used a body)) (h' : Holds m' o' (.used a body)) :
    dwordAt m' (o' + 8) = dwordAt m (o + 8) := by
  obtain ⟨-, -, -, hlen, hbody⟩ := h
  obtain ⟨-, -, -, -, hbody'⟩ := h'
  apply dwordAt_congr
  intro k hk
  rw [hbody' k (by omega), hbody k (by omega)]

theorem DbInv.reAlloc (h : DbInv b db l chain) (hi : i < keyRecordsPerDatablock)
    (hne : db.table i ≠ 0) (hlo : 20 ≤ dwordAt db.mem (db.table i + 8))
    (hhi : dwordAt db.mem (db.table i + 8) ≤ length) :
    Preserves b db (rgReAllocKeyRecord db i length) (some i) := by
  unfold rgReAllocKeyRecord
  split
  · exact h.refl _
  · rename_i hmax
    obtain ⟨l₁, chain₁, hinv₁, hbodies₁⟩ := h.extend hi hne length
    split
    · rename_i db₁ heq
      rw [heq] at hinv₁
      exact h.preserves_other hinv₁ hbodies₁
    · rename_i db₁ e heq
      rw [rgExtendKeyRecord_error heq]
      rcases h.allocFrom (show 12 ≤ length by omega) with
        ⟨-, hfail⟩ | ⟨db₂, size, rest, chain₂, hsize, hrest, hok, hpending⟩
      · rw [hfail]
        exact h.refl _
      · rw [hok]
        obtain ⟨pre, body, post, hl, ho⟩ := h.used hi hne
        have hused : usedOf l = usedOf pre ++ .used (makelong i b) body :: usedOf post := by
          rw [hl, usedOf, List.filter_append]
          rfl
        have hold : Holds db.mem (db.table i) (.used (makelong i b) body) := by
          have htiles := h.tiles
          rw [hl, tiles_append] at htiles
          rw [ho]
          exact htiles.2.1
        rw [hused] at hpending
        have hnew : Holds db₂.mem (sizeofDatablockHeader + total (usedOf pre))
            (.used (makelong i b) body) := by
          have htiles := hpending.block.tiles
          rw [List.append_assoc, tiles_append] at htiles
          exact htiles.2.1
        have hrecord := hold.recordSize_eq hnew
        obtain ⟨l', chain', hinv, hbodies⟩ :=
          hpending.replace hi (by omega) (by omega)
        rw [← hused] at hinv
        refine h.preserves_other hinv fun a ha => ?_
        have hnone : bodyOf a rest = none := bodyOf_none (by rw [hrest]; exact List.not_mem_nil)
        rw [hbodies a ha, ← hused, bodyOf_append, bodyOf_used, bodyOf, hnone]
        exact Option.or_none

end

end SdkTools.Registry
