import SdkTools.Registry.RecordLayout
import Mathlib.Data.List.TakeWhile

/-!
# Compacting a datablock

The key records are pushed together in their order, and the table is rebuilt.
-/

namespace SdkTools.Registry

set_option autoImplicit false

def Rec.isUsed (r : Rec) : Bool := !r.isFree

/-- The key records in front of a list. -/
def usedRun (l : List Rec) : List Rec := l.takeWhile Rec.isUsed

def afterUsed (l : List Rec) : List Rec := l.dropWhile Rec.isUsed

def freeRun (l : List Rec) : List Rec := l.takeWhile Rec.isFree

def afterFree (l : List Rec) : List Rec := l.dropWhile Rec.isFree

theorem used_append (l : List Rec) : usedRun l ++ afterUsed l = l := List.takeWhile_append_dropWhile

theorem free_append (l : List Rec) : freeRun l ++ afterFree l = l := List.takeWhile_append_dropWhile

theorem nextFree_eq {m : Buffer} {blockSize : Nat} {l : List Rec} : ∀ {o fuel : Nat},
    Tiles m o l blockSize → l.length < fuel →
    nextFree m blockSize fuel o = o + total (usedRun l) := by
  induction l with
  | nil =>
    intro o fuel h hfuel
    obtain ⟨fuel, rfl⟩ := Nat.exists_eq_succ_of_ne_zero (Nat.ne_of_gt hfuel)
    rw [nextFree, if_pos (Or.inl (Nat.le_of_eq h.symm))]
    rfl
  | cons r l ih =>
    intro o fuel h hfuel
    obtain ⟨fuel, rfl⟩ := Nat.exists_eq_succ_of_ne_zero (Nat.ne_of_gt (Nat.zero_lt_of_lt hfuel))
    have hsize := h.1.le_size
    have hle := h.2.le
    have hindex := h.1.hasIndex_eq
    cases hr : r.isFree with
    | true =>
      rw [nextFree, if_pos (Or.inr (by rw [hindex, hr]; rfl))]
      simp only [usedRun, List.takeWhile_cons, Rec.isUsed, hr, Bool.not_true, Bool.false_eq_true,
        if_false, total_nil, Nat.add_zero]
    | false =>
      have hgo : ¬ (o ≥ blockSize ∨ hasIndex m o = false) := by
        rw [hindex, hr]
        simp only [Bool.not_false, Bool.true_eq_false, or_false]
        omega
      rw [nextFree, if_neg hgo, h.1.size_eq,
        ih h.2 (by simp only [List.length_cons] at hfuel; omega)]
      simp only [usedRun, List.takeWhile_cons, Rec.isUsed, hr, Bool.not_false, if_true, total_cons,
        Nat.add_assoc]

theorem nextUsed_eq {m : Buffer} {blockSize : Nat} {l : List Rec} : ∀ {o fuel : Nat},
    Tiles m o l blockSize → l.length < fuel →
    nextUsed m blockSize fuel o = o + total (freeRun l) := by
  induction l with
  | nil =>
    intro o fuel h hfuel
    obtain ⟨fuel, rfl⟩ := Nat.exists_eq_succ_of_ne_zero (Nat.ne_of_gt hfuel)
    rw [nextUsed, if_pos (Or.inl (Nat.le_of_eq h.symm))]
    rfl
  | cons r l ih =>
    intro o fuel h hfuel
    obtain ⟨fuel, rfl⟩ := Nat.exists_eq_succ_of_ne_zero (Nat.ne_of_gt (Nat.zero_lt_of_lt hfuel))
    have hsize := h.1.le_size
    have hle := h.2.le
    have hindex := h.1.hasIndex_eq
    cases hr : r.isFree with
    | false =>
      rw [nextUsed, if_pos (Or.inr (by rw [hindex, hr]; rfl))]
      simp only [freeRun, List.takeWhile_cons, hr, Bool.false_eq_true, if_false, total_nil,
        Nat.add_zero]
    | true =>
      have hgo : ¬ (o ≥ blockSize ∨ hasIndex m o = true) := by
        rw [hindex, hr]
        simp only [Bool.not_true, Bool.false_eq_true, or_false]
        omega
      rw [nextUsed, if_neg hgo, h.1.size_eq,
        ih h.2 (by simp only [List.length_cons] at hfuel; omega)]
      simp only [freeRun, List.takeWhile_cons, hr, if_true, total_cons, Nat.add_assoc]

/-- The key records of a list, in their order. -/
def usedOf (l : List Rec) : List Rec := l.filter Rec.isUsed

theorem usedOf_eq (l : List Rec) :
    usedOf l = usedRun l ++ usedOf (afterFree (afterUsed l)) := by
  have hrun : usedOf (usedRun l) = usedRun l :=
    List.filter_eq_self.mpr fun r hr => List.mem_takeWhile_imp hr
  have hfree : usedOf (freeRun (afterUsed l)) = [] := by
    apply List.filter_eq_nil_iff.mpr
    intro r hr
    have hisFree : r.isFree = true := List.mem_takeWhile_imp hr
    simp only [Rec.isUsed, hisFree, Bool.not_true, Bool.false_eq_true, not_false_eq_true]
  have hsplit : l = usedRun l ++ (freeRun (afterUsed l) ++ afterFree (afterUsed l)) := by
    rw [free_append, used_append]
  conv => lhs; rw [hsplit]
  rw [usedOf, List.filter_append, List.filter_append]
  exact congrArg₂ (· ++ ·) hrun (congrArg (· ++ _) hfree)

/-- A step of the loop takes at least one record. -/
theorem afterFree_length {l : List Rec} (hl : l ≠ []) :
    (afterFree (afterUsed l)).length < l.length := by
  have hdrop : ∀ (p : Rec → Bool) (l : List Rec), (l.dropWhile p).length ≤ l.length :=
    fun p l => (List.dropWhile_suffix p).length_le
  cases l with
  | nil => exact absurd rfl hl
  | cons r l =>
    cases hr : r.isFree with
    | false =>
      have hu : afterUsed (r :: l) = afterUsed l := by
        simp only [afterUsed, List.dropWhile_cons, Rec.isUsed, hr, Bool.not_false, if_true]
      have h1 := hdrop Rec.isFree (afterUsed l)
      have h2 := hdrop Rec.isUsed l
      rw [hu, List.length_cons]
      simp only [afterFree, afterUsed] at *
      omega
    | true =>
      have hu : afterUsed (r :: l) = r :: l := by
        simp only [afterUsed, List.dropWhile_cons, Rec.isUsed, hr, Bool.not_true,
          Bool.false_eq_true, if_false]
      have hf : afterFree (r :: l) = afterFree l := by
        simp only [afterFree, List.dropWhile_cons, hr, if_true]
      have h1 := hdrop Rec.isFree l
      rw [hu, hf, List.length_cons]
      simp only [afterFree] at *
      omega

/-- The loop from a key record on: what is left of the key records follows what
has been pushed together. -/
theorem compactLoop_spec {blockSize : Nat} (fuel : Nat) : ∀ {m : Buffer} {l : List Rec}
    (source : Nat) {d o : Nat}, Tiles m o l blockSize → l.length ≤ fuel → d ≤ o →
    (o < blockSize → source = o) → l.length < blockSize →
    ∃ m', compactLoop blockSize fuel m (some source) (some d) o =
        (m', some (d + total (usedOf l))) ∧
      Tiles m' d (usedOf l) (d + total (usedOf l)) ∧ ∀ i < d, m' i = m i := by
  induction fuel with
  | zero =>
    intro m l source d o h hfuel _ _ _
    have hnil : l = [] := List.length_eq_zero_iff.mp (by omega)
    subst hnil
    exact ⟨m, rfl, rfl, fun _ _ => rfl⟩
  | succ fuel ih =>
    intro m l source d o h hfuel hd hs hlen
    by_cases ho : o < blockSize
    · have hne : l ≠ [] := by
        intro hnil
        subst hnil
        exact Nat.lt_irrefl o (Nat.lt_of_lt_of_eq ho (id h.symm : blockSize = o))
      have hshort := afterFree_length hne
      rw [hs ho]
      have hsplit : Tiles m o (usedRun l ++ afterUsed l) blockSize := by rw [used_append]; exact h
      obtain ⟨hrun, hafter⟩ := tiles_append.mp hsplit
      have hfree : nextFree m blockSize blockSize o = o + total (usedRun l) := nextFree_eq h hlen
      -- the memory after the push
      let m₁ := moveMemory m d o (total (usedRun l))
      have hafter₁ : Tiles m₁ (o + total (usedRun l)) (afterUsed l) blockSize :=
        hafter.congr fun i hi _ => moveMemory_out (by omega)
      have hlen₁ : (afterUsed l).length < blockSize :=
        Nat.lt_of_le_of_lt (List.dropWhile_suffix _).length_le hlen
      have hused : nextUsed m₁ blockSize blockSize (o + total (usedRun l)) =
          o + total (usedRun l) + total (freeRun (afterUsed l)) := nextUsed_eq hafter₁ hlen₁
      have hsplit₁ : Tiles m₁ (o + total (usedRun l))
          (freeRun (afterUsed l) ++ afterFree (afterUsed l)) blockSize := by
        rw [free_append]
        exact hafter₁
      have hrest := (tiles_append.mp hsplit₁).2
      have hpushed : Tiles m₁ d (usedRun l) (d + total (usedRun l)) :=
        hrun.move fun k hk => moveMemory_in hk
      let o' := o + total (usedRun l) + total (freeRun (afterUsed l))
      obtain ⟨m', hloop, htiles, hsame⟩ := ih (if o' < blockSize then o' else o)
        (d := d + total (usedRun l)) hrest (by omega) (by omega) (fun h => if_pos h) (by omega)
      refine ⟨m', ?_, ?_, ?_⟩
      · have hsub : o + total (usedRun l) - o = total (usedRun l) := Nat.add_sub_cancel_left _ _
        simp only [compactLoop, if_pos ho, hfree, hsub, Option.getD_some, Option.map_some]
        have hif : (if nextUsed m₁ blockSize blockSize (o + total (usedRun l)) < blockSize then
            some (nextUsed m₁ blockSize blockSize (o + total (usedRun l))) else some o) =
            some (if o' < blockSize then o' else o) := by
          rw [hused]
          exact (apply_ite some _ _ _).symm
        rw [hif, hused, usedOf_eq l, total_append, ← Nat.add_assoc]
        exact hloop
      · rw [usedOf_eq l, tiles_append, total_append, ← Nat.add_assoc]
        exact ⟨hpushed.congr fun i _ hi => hsame i hi, htiles⟩
      · intro i hi
        rw [hsame i (by omega)]
        exact moveMemory_out (Or.inl hi)
    · have hnil : l = [] := by
        cases l with
        | nil => rfl
        | cons r l =>
          have hsize := h.1.le_size
          have hle := h.2.le
          omega
      subst hnil
      refine ⟨m, ?_, rfl, fun _ _ => rfl⟩
      simp only [compactLoop, if_neg ho]
      rfl

/-- The loop over a whole block. -/
theorem compactLoop_block {m : Buffer} {l : List Rec} {blockSize : Nat}
    (h : Tiles m 32 l blockSize) (hne : l ≠ []) :
    ∃ m', compactLoop blockSize blockSize m none none sizeofDatablockHeader =
        (m', some (32 + total (usedOf l))) ∧
      Tiles m' 32 (usedOf l) (32 + total (usedOf l)) := by
  have hlength := h.length_le
  have hshort := afterFree_length hne
  have hlen : l.length < blockSize := by omega
  have ho : sizeofDatablockHeader < blockSize := by
    have hpos : 0 < l.length := List.length_pos_iff.mpr hne
    show 32 < blockSize
    omega
  obtain ⟨fuel, hfuel⟩ := Nat.exists_eq_succ_of_ne_zero (Nat.ne_of_gt (Nat.zero_lt_of_lt ho))
  have hsplit : Tiles m 32 (usedRun l ++ afterUsed l) blockSize := by rw [used_append]; exact h
  obtain ⟨hrun, hafter⟩ := tiles_append.mp hsplit
  have hfree : nextFree m blockSize blockSize sizeofDatablockHeader = 32 + total (usedRun l) :=
    nextFree_eq h hlen
  have hlen₁ : (afterUsed l).length < blockSize :=
    Nat.lt_of_le_of_lt (List.dropWhile_suffix _).length_le hlen
  have hused : nextUsed m blockSize blockSize (32 + total (usedRun l)) =
      32 + total (usedRun l) + total (freeRun (afterUsed l)) := nextUsed_eq hafter hlen₁
  have hsplit₁ : Tiles m (32 + total (usedRun l))
      (freeRun (afterUsed l) ++ afterFree (afterUsed l)) blockSize := by
    rw [free_append]
    exact hafter
  have hrest := (tiles_append.mp hsplit₁).2
  let o' := 32 + total (usedRun l) + total (freeRun (afterUsed l))
  have hloop : compactLoop blockSize blockSize m none none sizeofDatablockHeader =
      compactLoop blockSize fuel m (if o' < blockSize then some o' else none)
        (some (32 + total (usedRun l))) o' := by
    conv => lhs; rw [hfuel]
    rw [compactLoop, ← hfuel]
    simp only [if_pos ho, hfree, Option.getD_none, hused]
    rfl
  by_cases ho' : o' < blockSize
  · obtain ⟨m', hm', htiles, hsame⟩ := compactLoop_spec fuel o'
      (d := 32 + total (usedRun l)) hrest (by omega) (by omega) (fun _ => rfl) (by omega)
    refine ⟨m', ?_, ?_⟩
    · rw [hloop, if_pos ho', usedOf_eq l, total_append, ← Nat.add_assoc]
      exact hm'
    · rw [usedOf_eq l, tiles_append, total_append, ← Nat.add_assoc]
      exact ⟨hrun.congr fun i _ hi => hsame i hi, htiles⟩
  · have hnil : afterFree (afterUsed l) = [] := by
      cases hl : afterFree (afterUsed l) with
      | nil => rfl
      | cons r rest =>
        rw [hl] at hrest
        have hsize := hrest.1.le_size
        have hle := hrest.2.le
        omega
    have hall : usedOf l = usedRun l := by
      rw [usedOf_eq l, hnil]
      exact List.append_nil _
    refine ⟨m, ?_, ?_⟩
    · rw [hloop, if_neg ho', hall]
      cases fuel with
      | zero => rfl
      | succ fuel => rw [compactLoop, if_neg ho']
    · rw [hall]
      exact hrun

end SdkTools.Registry
