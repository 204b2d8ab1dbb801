import SdkTools.MemoryCache.SplayRotations

/-!
# The loop of `pRtlSplay`

Each round is a rotation, which brings the node nearer to the root.
-/

namespace SdkTools.MemoryCache

open Lib Lib.BinTree Lib.Context Lib.Links

set_option autoImplicit false

variable {α : Type} [DecidableEq α] {h : Links α} {d : Bool} {L P G : α}

/-! ### Rounds -/

theorem splayStep_zig (hparent : h.parent L = P) (hleft : RtlIsLeftChild h L = !d)
    (hroot : RtlIsRoot h P = true) : splayStep h L = zig d h L P := by
  unfold splayStep zig
  rw [hparent, hleft]
  cases d with
  | false => simp [hroot]
  | true => simp [hroot]

theorem splayStep_zigzig (hparent : h.parent L = P) (hgrand : h.parent P = G)
    (hleft : RtlIsLeftChild h L = !d) (hroot : RtlIsRoot h P = false)
    (hleftP : RtlIsLeftChild h P = !d) (hrightP : RtlIsRightChild h P = d) (hPG : P ≠ G)
    (hroots : ∀ z ∈ h.child (!d) P, h.child (!d) L ≠ some z) :
    splayStep h L = zigzig d h L P G := by
  unfold splayStep zigzig
  simp only [hparent, hgrand, hleft]
  cases d with
  | false => simp [hroot, hleftP]
  | true =>
    simp only [Bool.not_true] at hroots
    have hcomm := connect_comm (h := h) (d := true) (e := true) (x := G) (y := P)
      (by simp [Ne.symm hPG]) hroots
    simp [hroot, hrightP, child_connect, hcomm]

theorem splayStep_zigzag (hparent : h.parent L = P) (hgrand : h.parent P = G)
    (hleft : RtlIsLeftChild h L = !d) (hroot : RtlIsRoot h P = false)
    (hleftP : RtlIsLeftChild h P = d) (hrightP : RtlIsRightChild h P = !d)
    (hLP : L ≠ P) (hLG : L ≠ G) (hPG : P ≠ G)
    (hroots : ∀ z ∈ h.child (!d) L, h.child d L ≠ some z) :
    splayStep h L = zigzag d h L P G := by
  unfold splayStep zigzag
  simp only [hparent, hgrand, hleft]
  cases d with
  | false => simp [hroot, hleftP]
  | true =>
    simp only [Bool.not_true] at hroots
    have hcomm := connect_comm (h := h) (d := true) (e := false) (x := P) (y := G)
      (by simp) hroots
    have hlast (k : Links α) : connect (connect k false L (some P)) true L (some G) =
        connect (connect k true L (some G)) false L (some P) := by
      apply connect_comm (by simp)
      intro z hz
      cases hz
      simpa using Ne.symm hPG
    simp [hroot, hrightP, child_connect, hcomm, hlast, hLP, hLG]

/-- A round brings the node nearer to the root, and keeps the sequence. -/
theorem splayStep_spec {f : Frame α} {ctx : Context α} {l r : BinTree α}
    (hat : h.At (f :: ctx) (node l L r)) :
    ∃ ctx' l' r', (splayStep h L).At ctx' (node l' L r') ∧ ctx'.length < (f :: ctx).length ∧
      (plug ctx' (node l' L r')).inorder = (plug (f :: ctx) (node l L r)).inorder := by
  obtain ⟨d, P, s⟩ := f
  obtain ⟨a, b, hab⟩ := exists_join d l L r
  rw [hab] at hat ⊢
  have hnodup := hat.nodup
  have haround := hat.around
  rw [root_join] at haround
  have hperm := (perm_join d a L b).append_right (nodes (⟨d, P, s⟩ :: ctx))
  have hapart := hperm.nodup_iff.mp hnodup
  rw [nodes_cons] at hapart
  simp only [List.cons_append, List.nodup_cons, List.nodup_append, List.mem_append, List.mem_cons,
    not_or] at hapart
  have hparent : h.parent L = P := haround.1.2 L rfl
  have hleft : RtlIsLeftChild h L = !d := isLeftChild_eq haround (by grind)
  have hat' := At.cons_iff.mp hat
  have hlinked := (linked_join.mp hat.tree)
  cases ctx with
  | nil =>
    have hroot : RtlIsRoot h P = true := isRoot_of_nil haround.2.2
    obtain ⟨l', r', hjoin⟩ := join_eq_node d a L (join d b P s)
    refine ⟨[], l', r', ?_, Nat.succ_pos _, ?_⟩
    · rw [splayStep_zig hparent hleft hroot, ← hjoin]
      exact zig_at hat'
    · rw [← hjoin]
      cases d <;> simp [plug, inorder_join]
  | cons g ctx =>
    obtain ⟨e, G, t⟩ := g
    rw [nodes_cons] at hapart
    simp only [List.nodup_cons, List.nodup_append, List.mem_append, List.mem_cons,
      not_or] at hapart
    have hPG : P ≠ G := by grind
    have hgrand : h.parent P = G := haround.2.2.1.2 P rfl
    have hroot : RtlIsRoot h P = false := not_isRoot haround.2.2 hPG
    have hleftP : RtlIsLeftChild h P = !e := isLeftChild_eq haround.2.2 (by grind)
    have hrightP : RtlIsRightChild h P = e := isRightChild_eq haround.2.2 (by grind)
    by_cases he : e = d
    · subst he
      obtain ⟨l', r', hjoin⟩ := join_eq_node e a L (join e b P (join e s G t))
      refine ⟨ctx, l', r', ?_, Nat.lt_succ_of_lt (Nat.lt_succ_self _), ?_⟩
      · rw [splayStep_zigzig hparent hgrand hleft hroot hleftP hrightP hPG, ← hjoin]
        · exact zigzig_at (At.cons_iff.mp hat')
        · intro z hz
          rw [hlinked.2.1]
          rw [haround.2.1.1] at hz
          intro heq
          have hb := root_mem heq
          have hs := root_mem hz
          grind
      · rw [← hjoin]
        apply inorder_plug_congr
        cases e <;> simp [inorder_join]
    · have hnot : e = !d := by
        cases e <;> cases d <;> simp_all
      subst hnot
      rw [Bool.not_not] at hleftP
      obtain ⟨l', r', hjoin⟩ := join_eq_node d (join d t G a) L (join d b P s)
      refine ⟨ctx, l', r', ?_, Nat.lt_succ_of_lt (Nat.lt_succ_self _), ?_⟩
      · rw [splayStep_zigzag hparent hgrand hleft hroot hleftP hrightP (by grind) (by grind) hPG,
          ← hjoin]
        · exact zigzag_at (At.cons_iff.mp hat')
        · intro z hz
          rw [hlinked.1.1]
          rw [hlinked.2.1] at hz
          intro heq
          have ha := root_mem heq
          have hb := root_mem hz
          grind
      · rw [← hjoin]
        apply inorder_plug_congr
        cases d <;> simp [inorder_join]

/-! ### The loop -/

theorem pRtlSplay_at (fuel : Nat) {h : Links α} {ctx : Context α} {l r : BinTree α}
    (hat : h.At ctx (node l L r)) (hfuel : ctx.length < fuel) :
    ∃ h' t, pRtlSplay fuel h L = some (h', L) ∧ h'.IsTree (some L) t ∧
      t.inorder = (plug ctx (node l L r)).inorder := by
  induction fuel generalizing h ctx l r with
  | zero => omega
  | succ fuel ih =>
    cases ctx with
    | nil =>
      refine ⟨h, node l L r, ?_, ⟨hat, rfl⟩, rfl⟩
      rw [pRtlSplay, if_pos (isRoot_of_nil hat.around)]
    | cons f ctx =>
      obtain ⟨ctx', l', r', hstep, hshorter, hsame⟩ := splayStep_spec hat
      obtain ⟨h', t, hrun, htree, horder⟩ := ih hstep (by omega)
      refine ⟨h', t, ?_, htree, horder.trans hsame⟩
      have hne : L ≠ f.x := by
        intro heq
        have hnodup := hat.nodup
        rw [nodes_cons, heq] at hnodup
        simp [inorder, List.nodup_append] at hnodup
      rw [pRtlSplay, not_isRoot hat.around hne, if_neg Bool.false_ne_true]
      exact hrun

/-- `pRtlSplay` makes the node the root and keeps the sequence. -/
theorem pRtlSplay_spec {root : Option α} {t : BinTree α} (htree : h.IsTree root t)
    (hmem : L ∈ t.inorder) {fuel : Nat} (hfuel : t.inorder.length ≤ fuel) :
    ∃ h' t', pRtlSplay fuel h L = some (h', L) ∧ h'.IsTree (some L) t' ∧
      t'.inorder = t.inorder := by
  obtain ⟨ctx, l, r, hplug⟩ := exists_plug hmem []
  have hat : h.At ctx (node l L r) := by
    rw [At.plug_iff, hplug]
    exact htree.at_root
  have hlen := length_plug ctx (node l L r)
  rw [hplug] at hlen
  simp only [plug, inorder, List.length_append, List.length_cons] at hlen
  obtain ⟨h', t', hrun, htree', horder⟩ := pRtlSplay_at fuel hat (by omega)
  rw [hplug] at horder
  exact ⟨h', t', hrun, htree', horder⟩

end SdkTools.MemoryCache
