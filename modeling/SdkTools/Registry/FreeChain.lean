import SdkTools.Registry.KeyRecordSteps

/-!
# Surgery on the free list

A free record that is extended into leaves the list, and what remains of it takes
its place.
-/

namespace SdkTools.Registry

set_option autoImplicit false

/-- The free records from `head` on up to the link to `last`. -/
def Path (m : Buffer) : Nat → List Nat → Nat → Prop
  | head, [], last => head = last
  | head, x :: chain, last => head = x ∧ x ≠ REG_NULL ∧ Path m (dwordAt m (x + 8)) chain last

theorem chain_append {m : Buffer} {front back : List Nat} : ∀ {head : Nat},
    Chain m head (front ++ back) ↔ ∃ last, Path m head front last ∧ Chain m last back := by
  induction front with
  | nil =>
    intro head
    constructor
    · intro h
      exact ⟨head, rfl, h⟩
    · intro h
      obtain ⟨last, hpath, hback⟩ := h
      rw [show head = last from hpath]
      exact hback
  | cons x front ih =>
    intro head
    constructor
    · intro h
      obtain ⟨hhead, hx, h⟩ := h
      obtain ⟨last, hpath, hback⟩ := ih.mp h
      exact ⟨last, ⟨hhead, hx, hpath⟩, hback⟩
    · intro h
      obtain ⟨last, ⟨hhead, hx, hpath⟩, hback⟩ := h
      exact ⟨hhead, hx, ih.mpr ⟨last, hpath, hback⟩⟩

theorem Path.congr {m m' : Buffer} {chain : List Nat} {last : Nat}
    (hm : ∀ x ∈ chain, dwordAt m' (x + 8) = dwordAt m (x + 8)) : ∀ {head : Nat},
    Path m head chain last → Path m' head chain last := by
  induction chain with
  | nil =>
    intro head h
    exact h
  | cons x chain ih =>
    intro head h
    refine ⟨h.1, h.2.1, ?_⟩
    rw [hm x List.mem_cons_self]
    exact ih (fun y hy => hm y (List.mem_cons_of_mem x hy)) h.2.2

/-- Free records do not share bytes of their headers. -/
def Apart (x y : Nat) : Prop := x + 12 ≤ y ∨ y + 12 ≤ x

theorem Apart.symm {x y : Nat} (h : Apart x y) : Apart y x := Or.symm h

theorem Apart.ne {x y : Nat} (h : Apart x y) : x ≠ y := by
  intro heq
  subst heq
  unfold Apart at h
  omega

/-- The search in the list finds the link to the record and changes that one. -/
theorem relink_spec {m : Buffer} {free new : Nat} (hnew : new < 2 ^ 32) {chain : List Nat} :
    ∀ {fuel head : Nat}, Path m head chain free → chain ≠ [] → free ∉ chain →
    chain.Pairwise Apart → chain.length ≤ fuel →
    ∃ x ∈ chain, relink m free new fuel head = setDword m (x + 8) new ∧
      Path (setDword m (x + 8) new) head chain new := by
  induction chain with
  | nil =>
    intro fuel head _ hne
    exact absurd rfl hne
  | cons x chain ih =>
    intro fuel head hpath _ hnot hapart hfuel
    obtain ⟨hhead, hx, hpath⟩ := hpath
    subst hhead
    obtain ⟨hrest, hapart⟩ := List.pairwise_cons.mp hapart
    cases fuel with
    | zero => exact absurd hfuel (Nat.not_succ_le_zero _)
    | succ fuel =>
      rw [relink, if_neg hx]
      cases chain with
      | nil =>
        have hnext : dwordAt m (head + 8) = free := hpath
        refine ⟨head, List.mem_cons_self, if_pos hnext, rfl, hx, ?_⟩
        exact dwordAt_setDword hnew
      | cons y chain =>
        have hnext : dwordAt m (head + 8) = y := hpath.1
        have hne : ¬ dwordAt m (head + 8) = free := by
          intro heq
          apply hnot
          rw [← heq, hnext]
          exact List.mem_cons_of_mem _ List.mem_cons_self
        obtain ⟨z, hz, hrelink, hz_path⟩ := ih hpath (List.cons_ne_nil _ _)
          (List.not_mem_of_not_mem_cons hnot) hapart (Nat.le_of_succ_le_succ hfuel)
        refine ⟨z, List.mem_cons_of_mem _ hz, ?_, rfl, hx, ?_⟩
        · simp only [if_neg hne]
          exact hrelink
        · have hz_apart := hrest z hz
          unfold Apart at hz_apart
          rw [dwordAt_setDword_ne (by omega)]
          exact hz_path

theorem Tiles.apart {m : Buffer} {l : List Rec} : ∀ {o e : Nat}, Tiles m o l e →
    (freeOffsets o l).Pairwise Apart := by
  induction l with
  | nil =>
    intro o e _
    exact List.Pairwise.nil
  | cons r l ih =>
    intro o e h
    cases r with
    | used a body => exact ih h.2
    | free size =>
      refine List.pairwise_cons.mpr ⟨fun x hx => ?_, ih h.2⟩
      have hin := h.2.freeOffset hx
      have hlo := h.1.le_size
      simp only [Rec.size] at hin hlo
      exact Or.inl (by omega)

/-- The link of a free record is no part of the tiling. -/
theorem Tiles.setNext {m : Buffer} {l : List Rec} {o e x next : Nat} (h : Tiles m o l e)
    (hx : x ∈ freeOffsets o l) : Tiles (setDword m (x + 8) next) o l e := by
  obtain ⟨pre, size, post, hl, hxo⟩ := freeOffsets_split hx
  subst hl
  have hfree := (tiles_append.mp h).2.1
  have hlo : 12 ≤ size := hfree.2.2
  rw [← hxo] at hfree
  refine h.splice [.free size] [.free size] (fun i hi => ?_) ?_
  · have hone : total [Rec.free size] = size := rfl
    exact setDword_ne (by omega)
  · rw [← hxo]
    refine ⟨⟨?_, ?_, hlo⟩, rfl⟩
    · rw [dwordAt_setDword_ne (by omega)]
      exact hfree.1
    · rw [dwordAt_setDword_ne (by omega)]
      exact hfree.2.1

end SdkTools.Registry
