import SdkTools.MemoryCache.SplayLoop

/-!
# Deletion

A node with two children first changes places with its predecessor, which has no right
child; then the only child takes the place of the node.
-/

namespace SdkTools.MemoryCache

open Lib Lib.BinTree Lib.Context Lib.Links

set_option autoImplicit false

variable {α : Type} [DecidableEq α] {h : Links α} {x y : α} {l r u : BinTree α} {ctx : Context α}

/-! ### A node with at most one child -/

/-- The child takes the place of the node. -/
theorem connect_child_at {f : Frame α} (hat : h.At (f :: ctx) (node l x r))
    (hu : u = l ∨ u = r) : (connect h f.d f.x u.root).At (f :: ctx) u := by
  obtain ⟨⟨⟨-, -, hl⟩, -, -, hr⟩, haround, hnodup⟩ := hat
  have hlinked : h.Linked u := by
    rcases hu with rfl | rfl
    · exact hl
    · exact hr
  have hsub : ∀ z ∈ u.inorder, z ∈ (node l x r).inorder := by
    intro z hz
    rcases hu with rfl | rfl
    · exact List.mem_append_left _ hz
    · exact List.mem_append_right _ (List.mem_cons_of_mem _ hz)
  obtain ⟨hndt, hndc, hdisj⟩ := List.nodup_append.mp hnodup
  have hndu : u.inorder.Nodup := by
    obtain ⟨hndl, hndr, -⟩ := List.nodup_append.mp hndt
    rcases hu with rfl | rfl
    · exact hndl
    · exact (List.nodup_cons.mp hndr).2
  refine ⟨hlinked.frame (connect_agree h f.d f.x u.root) hndu ?_ ?_,
    connect_replace haround hndc ?_, List.nodup_append.mpr ⟨hndu, hndc, ?_⟩⟩
  · intro z hz hmem
    exact hdisj z (hsub z hz) f.x (by simp) (List.mem_singleton.mp hmem)
  · intro z _ hne hmem
    exact hne (Option.mem_toList.mp hmem)
  · intro z hz hmem
    exact hdisj z (hsub z (root_mem hz)) z hmem rfl
  · intro z hz
    exact hdisj z (hsub z hz)

theorem deleteLinks_at {fuel : Nat} (hat : h.At ctx (node l x r))
    (hone : l = leaf ∧ u = r ∨ r = leaf ∧ u = l) (hfuel : ctx.length ≤ fuel) :
    ∃ h' root t, deleteLinks fuel h x = some (h', root) ∧ h'.IsTree root t ∧
      t.inorder = (plug ctx u).inorder := by
  have hu : u = l ∨ u = r := by
    rcases hone with ⟨-, hu⟩ | ⟨-, hu⟩
    · exact Or.inr hu
    · exact Or.inl hu
  obtain ⟨⟨hcl, -, hl⟩, hcr, -, hr⟩ := hat.tree
  have hchildren : (h.child false x = none ∧ h.child true x = none) ↔ u.root = none := by
    rw [hcl, hcr]
    rcases hone with ⟨rfl, rfl⟩ | ⟨rfl, rfl⟩
    · exact and_iff_right rfl
    · exact and_iff_left rfl
  have hchild : (if h.child false x ≠ none then h.child false x else h.child true x) = u.root := by
    rw [hcl, hcr]
    rcases hone with ⟨rfl, rfl⟩ | ⟨rfl, rfl⟩
    · exact if_neg fun hne => hne rfl
    · by_cases hnone : u.root = none
      · rw [if_neg fun hne => hne hnone, hnone]
        rfl
      · exact if_pos hnone
  unfold deleteLinks
  rw [hchild]
  cases ctx with
  | nil =>
    have hroot : RtlIsRoot h x = true := isRoot_of_nil hat.around
    cases hq : u.root with
    | none =>
      refine ⟨h, none, leaf, ?_, ⟨⟨trivial, ?_, List.nodup_nil⟩, rfl⟩, ?_⟩
      · rw [if_pos (hchildren.mpr hq), if_pos hroot]
      · intro z hz
        cases hz
      · rw [root_eq_none hq]
        rfl
    | some c =>
      have hlinked : h.Linked u := by
        rcases hu with rfl | rfl
        · exact hl
        · exact hr
      have hndu : u.inorder.Nodup := by
        obtain ⟨hndl, hndr, -⟩ := List.nodup_append.mp (List.nodup_append.mp hat.nodup).1
        rcases hu with rfl | rfl
        · exact hndl
        · exact (List.nodup_cons.mp hndr).2
      refine ⟨setParent h c c, some c, u, ?_, ⟨⟨?_, ?_, ?_⟩, hq⟩, rfl⟩
      · rw [if_neg fun hnone => by rw [hchildren.mp hnone] at hq; cases hq]
        simp [hroot]
      · apply hlinked.frame (setParent_agree h c c) hndu
        · intro _ _
          exact List.not_mem_nil
        · intro z _ hne hmem
          rw [hq] at hne
          exact hne (congrArg some (List.mem_singleton.mp hmem).symm)
      · intro z hz
        rw [hq] at hz
        cases hz
        rw [parent_setParent, if_pos rfl]
      · simpa [nodes] using hndu
  | cons f ctx =>
    have hx : x ≠ f.x ∧ x ∉ f.sibling.inorder := by
      have hnodup := hat.nodup
      rw [nodes_cons] at hnodup
      simp only [inorder, List.nodup_append, List.mem_append, List.mem_cons] at hnodup
      have hdisj := hnodup.2.2 x (Or.inr (Or.inl rfl))
      exact ⟨hdisj f.x (Or.inl rfl), fun hmem => hdisj x (Or.inr (Or.inl hmem)) rfl⟩
    have hroot : RtlIsRoot h x = false := not_isRoot hat.around hx.1
    have hparent : h.parent x = f.x := hat.around.1.2 x rfl
    have hplace := connect_child_at hat hu
    have hat' := At.cons_iff.mp hplace
    obtain ⟨l', r', hjoin⟩ := join_eq_node f.d u f.x f.sibling
    rw [hjoin] at hat'
    obtain ⟨h', t, hrun, htree, horder⟩ := pRtlSplay_at fuel hat' (by
      rw [List.length_cons] at hfuel
      omega)
    refine ⟨h', some f.x, t, ?_, htree, ?_⟩
    · cases hq : u.root with
      | none =>
        rw [hq] at hrun
        rw [if_pos (hchildren.mpr hq), hroot, if_neg Bool.false_ne_true]
        simp only [setParentsChild_eq hat.around hx.2, hparent]
        change (pRtlSplay fuel (connect h f.d f.x none) f.x).map _ = _
        rw [hrun]
        rfl
      | some c =>
        rw [hq] at hrun
        rw [if_neg fun hnone => by rw [hchildren.mp hnone] at hq; cases hq]
        have hsame : setParent (setChild h f.d f.x (some c)) c
            ((setChild h f.d f.x (some c)).parent x) = connect h f.d f.x (some c) := by
          change setParent (setChild h f.d f.x (some c)) c (h.parent x) = _
          rw [hparent]
          rfl
        have hback : (connect h f.d f.x (some c)).parent c = f.x := by
          rw [parent_connect, if_pos rfl]
        simp only [hroot, Bool.false_eq_true, if_false, setParentsChild_eq hat.around hx.2, hsame,
          hback, hrun]
        rfl
    · rw [horder, ← hjoin]
      rfl

end SdkTools.MemoryCache
