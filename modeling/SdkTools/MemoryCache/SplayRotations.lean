import SdkTools.MemoryCache.Splay

/-!
# Rotations

Each rotation keeps the links in agreement and the in-order sequence. The mirrored cases
are one rotation on a side, up to the order of independent assignments.
-/

namespace SdkTools.MemoryCache

open Lib Lib.BinTree Lib.Context Lib.Links

set_option autoImplicit false

variable {α : Type} [DecidableEq α] {h : Links α} {d e : Bool} {x y : α} {q : Option α}

/-! ### Assignments -/

theorem child_setChild : (setChild h d x q).child e y = if e = d ∧ y = x then q else h.child e y :=
  rfl

theorem parent_setParent (p : α) :
    (setParent h x p).parent y = if y = x then p else h.parent y := Function.update_apply _ _ _ _

theorem child_connect :
    (connect h d x q).child e y = if e = d ∧ y = x then q else h.child e y := by
  cases q <;> rfl

theorem parent_connect :
    (connect h d x q).parent y = if q = some y then x else h.parent y := by
  cases q with
  | none => rfl
  | some z =>
    rw [connect, parent_setParent]
    by_cases hyz : y = z
    · rw [if_pos hyz, if_pos (congrArg some hyz.symm)]
    · rw [if_neg hyz, if_neg (by simpa using Ne.symm hyz)]
      rfl

theorem child_setParent (p : α) : (setParent h x p).child e y = h.child e y := rfl

theorem connect_agree (h : Links α) (d : Bool) (x : α) (q : Option α) :
    Agree [x] q.toList h (connect h d x q) where
  child y hy e := by
    rw [child_connect, if_neg]
    intro hboth
    exact hy (by simp [hboth.2])
  parent y hy := by
    rw [parent_connect, if_neg]
    intro heq
    exact hy (by simp [heq])

theorem setParent_agree (h : Links α) (x p : α) : Agree [] [x] h (setParent h x p) where
  child _ _ _ := rfl
  parent y hy := by
    rw [parent_setParent, if_neg]
    simpa using hy

theorem setChild_agree (h : Links α) (d : Bool) (x : α) (q : Option α) :
    Agree [x] [] h (setChild h d x q) where
  child y hy e := by
    rw [child_setChild, if_neg]
    intro hboth
    exact hy (by simp [hboth.2])
  parent _ _ := rfl

omit [DecidableEq α] in
theorem links_ext {h k : Links α} (hparent : ∀ x, h.parent x = k.parent x)
    (hchild : ∀ d x, h.child d x = k.child d x) : h = k := by
  obtain ⟨p, c⟩ := h
  obtain ⟨p', c'⟩ := k
  obtain rfl : p = p' := funext hparent
  obtain rfl : c = c' := funext fun d => funext fun x => hchild d x
  rfl

/-- Different slots that get different nodes can be connected in either order. -/
theorem connect_comm {r : Option α} (hslot : ¬ (d = e ∧ x = y)) (hroots : ∀ z ∈ q, r ≠ some z) :
    connect (connect h d x q) e y r = connect (connect h e y r) d x q := by
  apply links_ext
  · intro z
    simp only [parent_connect]
    by_cases hq : q = some z
    · rw [if_pos hq, if_pos hq, if_neg (hroots z hq)]
    · rw [if_neg hq, if_neg hq]
  · intro f z
    simp only [child_connect]
    by_cases hd : f = d ∧ z = x
    · rw [if_pos hd, if_pos hd, if_neg]
      intro he
      exact hslot ⟨hd.1.symm.trans he.1, hd.2.symm.trans he.2⟩
    · rw [if_neg hd, if_neg hd]

/-! ### The place of a subtree -/

section

variable {f : Frame α} {ctx : Context α}

theorem isLeftChild_eq (hctx : h.LinkedCtx (f :: ctx) (some x)) (hx : x ∉ f.sibling.inorder) :
    RtlIsLeftChild h x = !f.d := by
  obtain ⟨⟨hchild, hparent⟩, ⟨hsib, -, -⟩, -⟩ := hctx
  rw [RtlIsLeftChild, hparent x rfl]
  cases hd : f.d with
  | false =>
    rw [hd] at hchild
    exact decide_eq_true hchild
  | true =>
    rw [hd] at hsib
    apply decide_eq_false
    intro hroot
    exact hx (root_mem (hsib.symm.trans hroot))

theorem isRightChild_eq (hctx : h.LinkedCtx (f :: ctx) (some x)) (hx : x ∉ f.sibling.inorder) :
    RtlIsRightChild h x = f.d := by
  obtain ⟨⟨hchild, hparent⟩, ⟨hsib, -, -⟩, -⟩ := hctx
  rw [RtlIsRightChild, hparent x rfl]
  cases hd : f.d with
  | true =>
    rw [hd] at hchild
    exact decide_eq_true hchild
  | false =>
    rw [hd] at hsib
    apply decide_eq_false
    intro hroot
    exact hx (root_mem (hsib.symm.trans hroot))

theorem setParentsChild_eq (hctx : h.LinkedCtx (f :: ctx) (some x))
    (hx : x ∉ f.sibling.inorder) (q : Option α) :
    setParentsChild h x q = setChild h f.d f.x q := by
  rw [setParentsChild, isLeftChild_eq hctx hx, hctx.1.2 x rfl, Bool.not_not]

/-- The hole gets another pointer, and the node there its parent. -/
theorem connect_replace {p : Option α} (hctx : h.LinkedCtx (f :: ctx) p)
    (hnodup : (nodes (f :: ctx)).Nodup) {q : Option α} (hq : ∀ y ∈ q, y ∉ nodes (f :: ctx)) :
    (connect h f.d f.x q).LinkedCtx (f :: ctx) q := by
  obtain ⟨-, ⟨hsib, hsibParent, hsibTree⟩, hrest⟩ := hctx
  have hagree := connect_agree h f.d f.x q
  rw [nodes_cons] at hnodup hq
  obtain ⟨hx, hnodup⟩ := List.nodup_cons.mp hnodup
  obtain ⟨hndS, hndC, -⟩ := List.nodup_append.mp hnodup
  have hM : ∀ y ∈ f.x :: (f.sibling.inorder ++ nodes ctx), y ∉ q.toList := by
    intro y hy hmem
    exact hq y (Option.mem_toList.mp hmem) hy
  refine ⟨⟨?_, ?_⟩, ⟨?_, hsibParent.frame hagree ?_, hsibTree.frame hagree hndS ?_ ?_⟩,
    hrest.frame hagree hndC ?_ ?_ ?_⟩
  · rw [child_connect, if_pos ⟨rfl, rfl⟩]
  · intro y hy
    rw [parent_connect, if_pos (Option.mem_def.mp hy)]
  · rw [child_connect, if_neg (by simp), hsib]
  · intro y hy
    exact hM y (List.mem_cons_of_mem _ (List.mem_append_left _ (root_mem hy)))
  · intro y hy hmem
    rw [List.mem_singleton.mp hmem] at hy
    exact hx (List.mem_append_left _ hy)
  · intro y hy _
    exact hM y (List.mem_cons_of_mem _ (List.mem_append_left _ hy))
  · intro y hy hmem
    rw [List.mem_singleton.mp hmem] at hy
    exact hx (List.mem_append_right _ hy)
  · intro y hy
    exact hM y (List.mem_cons_of_mem _ (List.mem_append_right _ hy))
  · intro y hy
    cases hy
    exact hM f.x List.mem_cons_self

theorem isRoot_of_nil (hctx : h.LinkedCtx [] (some x)) : RtlIsRoot h x = true :=
  decide_eq_true (hctx x rfl)

theorem not_isRoot (hctx : h.LinkedCtx (f :: ctx) (some x)) (hx : x ≠ f.x) :
    RtlIsRoot h x = false := by
  rw [RtlIsRoot, hctx.1.2 x rfl]
  exact decide_eq_false (Ne.symm hx)

end

/-- The link to the parent is set to the new top. -/
theorem connectGreat_cons {f : Frame α} {ctx : Context α} {G L : α}
    (hctx : h.LinkedCtx (f :: ctx) (some G)) (hG : G ∉ nodes (f :: ctx)) (hne : G ≠ L) :
    connectGreat h G L = connect h f.d f.x (some L) := by
  rw [nodes_cons, List.mem_cons, List.mem_append, not_or, not_or] at hG
  have hsame : setParentsChild (setParent h L (h.parent G)) G (some L) =
      setParent (setParentsChild h G (some L)) L (h.parent G) := by
    unfold setParentsChild RtlIsLeftChild
    rw [parent_setParent, if_neg hne]
    rfl
  rw [connectGreat, not_isRoot hctx hG.1, if_neg Bool.false_ne_true, hsame,
    setParentsChild_eq hctx hG.2.1, hctx.1.2 G rfl]
  rfl

/-- The new top of a subtree goes to the place of the old one. -/
theorem connectGreat_spec {ctx : Context α} {G L : α} (hctx : h.LinkedCtx ctx (some G))
    (hnodup : (nodes ctx).Nodup) (hG : G ∉ nodes ctx) (hL : L ∉ nodes ctx) (hne : G ≠ L) :
    (connectGreat h G L).LinkedCtx ctx (some L) ∧
      Agree (nodes ctx) [L] h (connectGreat h G L) := by
  cases ctx with
  | nil =>
    rw [connectGreat, if_pos (isRoot_of_nil hctx)]
    refine ⟨?_, setParent_agree h L L⟩
    intro y hy
    cases hy
    rw [parent_setParent, if_pos rfl]
  | cons f ctx =>
    rw [connectGreat_cons hctx hG hne]
    refine ⟨connect_replace hctx hnodup ?_, ?_, ?_⟩
    · intro y hy
      cases hy
      exact hL
    · intro y hy e
      apply (connect_agree h f.d f.x (some L)).child
      intro hmem
      rw [List.mem_singleton.mp hmem] at hy
      exact hy (by simp)
    · exact (connect_agree h f.d f.x (some L)).parent

/-! ### The rotations on a side -/

def zig (d : Bool) (h : Links α) (L P : α) : Links α :=
  let h := connect h d P (h.child (!d) L)
  let h := connect h (!d) L (some P)
  setParent h L L

def zigzig (d : Bool) (h : Links α) (L P G : α) : Links α :=
  let h := connect h d P (h.child (!d) L)
  let h := connect h d G (h.child (!d) P)
  let h := connectGreat h G L
  let h := connect h (!d) L (some P)
  connect h (!d) P (some G)

def zigzag (d : Bool) (h : Links α) (L P G : α) : Links α :=
  let h := connect h (!d) G (h.child d L)
  let h := connect h d P (h.child (!d) L)
  let h := connectGreat h G L
  let h := connect h d L (some G)
  connect h (!d) L (some P)

section

variable {L P G : α} {a b c t : BinTree α} {ctx : Context α}

theorem zig_at (hat : h.At [] (join d (join d a L b) P c)) :
    (zig d h L P).At [] (join d a L (join d b P c)) := by
  obtain ⟨htree, -, hnodup⟩ := hat
  obtain ⟨⟨-, -, htree⟩, hPc, hcP, hc⟩ := linked_join.mp htree
  obtain ⟨⟨hLa, haL, ha⟩, hLb, -, hb⟩ := linked_join.mp htree
  have hperm : (join d (join d a L b) P c).inorder.Perm
      (L :: P :: (a.inorder ++ (b.inorder ++ c.inorder))) := by
    apply List.perm_iff_count.mpr
    intro z
    cases d <;> simp only [inorder_join, Bool.false_eq_true, if_false, if_true, List.count_append,
      List.count_cons] <;> omega
  have hperm' : (join d a L (join d b P c)).inorder.Perm
      (L :: P :: (a.inorder ++ (b.inorder ++ c.inorder))) := by
    apply List.perm_iff_count.mpr
    intro z
    cases d <;> simp only [inorder_join, Bool.false_eq_true, if_false, if_true, List.count_append,
      List.count_cons] <;> omega
  have hapart : (L :: P :: (a.inorder ++ (b.inorder ++ c.inorder))).Nodup :=
    hperm.nodup_iff.mp (by simpa [nodes] using hnodup)
  have hnodup' : (join d a L (join d b P c)).inorder.Nodup := hperm'.nodup_iff.mpr hapart
  simp only [List.nodup_cons, List.nodup_append, List.mem_append, List.mem_cons, not_or] at hapart
  obtain ⟨⟨hLP, hL⟩, hP, hnda, ⟨hndb, hndc, hbc⟩, habc⟩ := hapart
  have heq : zig d h L P = setParent (connect (connect h d P b.root) (!d) L (some P)) L L := by
    rw [zig, hLb]
  have hagree : Agree ([P] ++ ([L] ++ [])) (b.root.toList ++ ([P] ++ [L])) h (zig d h L P) := by
    rw [heq]
    exact (connect_agree h d P b.root).trans ((connect_agree _ (!d) L (some P)).trans
      (setParent_agree _ L L))
  have hroot (u : BinTree α) (z : α) (hz : z ∈ u.root.toList) : z ∈ u.inorder :=
    root_mem (Option.mem_toList.mp hz)
  have hframe (u : BinTree α) (hu : h.Linked u) (hnd : u.inorder.Nodup)
      (hz : ∀ z ∈ u.inorder, z ≠ L ∧ z ≠ P ∧ (u.root ≠ some z → z ∉ b.root.toList)) :
      (zig d h L P).Linked u := by
    apply hu.frame hagree hnd
    · intro z hmem
      simp [(hz z hmem).1, (hz z hmem).2.1]
    · intro z hmem hne
      simpa [(hz z hmem).1, (hz z hmem).2.1] using (hz z hmem).2.2 hne
  have hstay (u : BinTree α) (p : α) (hu : h.ParentIs u.root p)
      (hz : ∀ z ∈ u.inorder, z ≠ L ∧ z ≠ P ∧ z ∉ b.root.toList) :
      (zig d h L P).ParentIs u.root p := by
    apply hu.frame hagree
    intro z hmem
    have hz := hz z (root_mem hmem)
    simpa [hz.1, hz.2.1] using hz.2.2
  refine ⟨linked_join.mpr ⟨⟨?_, ?_, ?_⟩, ?_, ?_, linked_join.mpr ⟨⟨?_, ?_, ?_⟩, ?_, ?_, ?_⟩⟩, ?_,
    by simpa [nodes] using hnodup'⟩
  · simp [heq, child_setParent, child_connect, hLP, hLa]
  · exact hstay a L haL (by grind)
  · exact hframe a ha hnda (by grind)
  · simp [heq, child_setParent, child_connect]
  · intro y hy
    rw [root_join] at hy
    cases hy
    simp [heq, parent_setParent, parent_connect, Ne.symm hLP]
  · simp [heq, child_setParent, child_connect]
  · intro y hy
    have hmem := root_mem hy
    rw [heq, parent_setParent, parent_connect, parent_connect, if_neg (by grind),
      if_neg (by grind), if_pos (Option.mem_def.mp hy)]
  · exact hframe b hb hndb (by grind)
  · simp [heq, child_setParent, child_connect, hPc, Ne.symm hLP]
  · exact hstay c P hcP (by grind)
  · exact hframe c hc hndc (by grind)
  · intro y hy
    rw [root_join] at hy
    cases hy
    rw [heq, parent_setParent, if_pos rfl]

/-- What both double rotations do: two subtrees move, and the node takes the place of its
grandparent. -/
structure Doubled (h k : Links α) (L P G : α) (u v : BinTree α) (ctx : Context α) : Prop where
  agree : Agree (L :: P :: G :: nodes ctx) (L :: P :: G :: (u.root.toList ++ v.root.toList)) h k
  around : k.LinkedCtx ctx (some L)

theorem doubled {h₂ : Links α} {K M : List α} {u v : BinTree α} (hagree : Agree K M h h₂)
    (hctx : h.LinkedCtx ctx (some G)) (hK : K ⊆ [P, G]) (hM : M ⊆ u.root.toList ++ v.root.toList)
    (hapart : (L :: P :: G :: nodes ctx).Nodup)
    (hmoved : ∀ z ∈ u.root.toList ++ v.root.toList, z ≠ G ∧ z ∉ nodes ctx) {K' M' : List α}
    {k : Links α} (hlast : Agree K' M' (connectGreat h₂ G L) k) (hK' : K' ⊆ [L, P])
    (hM' : M' ⊆ [P, G]) :
    Doubled h k L P G u v ctx ∧ Agree (nodes ctx) [L] h₂ (connectGreat h₂ G L) := by
  simp only [List.nodup_cons, List.mem_cons, not_or] at hapart
  obtain ⟨⟨hLP, hLG, hL⟩, ⟨hPG, hP⟩, hG, hnodup⟩ := hapart
  have hctx₂ : h₂.LinkedCtx ctx (some G) := by
    apply hctx.frame hagree hnodup
    · intro z hz hmem
      rcases List.mem_cons.mp (hK hmem) with rfl | hmem
      · exact hP hz
      · exact hG (List.mem_singleton.mp hmem ▸ hz)
    · intro z hz hmem
      exact (hmoved z (hM hmem)).2 hz
    · intro z hz hmem
      cases hz
      exact (hmoved G (hM hmem)).1 rfl
  obtain ⟨hctx₃, hgreat⟩ := connectGreat_spec hctx₂ hnodup hG hL (Ne.symm hLG)
  refine ⟨⟨?_, ?_⟩, hgreat⟩
  · apply ((hagree.trans hgreat).trans hlast).mono
    · intro z hz
      simp only [List.mem_append] at hz
      rcases hz with (hz | hz) | hz
      · have := hK hz
        simp only [List.mem_cons, List.not_mem_nil, or_false] at this ⊢
        tauto
      · simp [hz]
      · have := hK' hz
        simp only [List.mem_cons, List.not_mem_nil, or_false] at this ⊢
        tauto
    · intro z hz
      simp only [List.mem_append] at hz
      rcases hz with (hz | hz) | hz
      · have := hM hz
        simp only [List.mem_cons] at this ⊢
        tauto
      · simp only [List.mem_cons, List.not_mem_nil, or_false] at hz ⊢
        tauto
      · have := hM' hz
        simp only [List.mem_cons, List.not_mem_nil, or_false] at this ⊢
        tauto
  · apply hctx₃.frame hlast hnodup
    · intro z hz hmem
      have := hK' hmem
      simp only [List.mem_cons, List.not_mem_nil, or_false] at this
      rcases this with rfl | rfl
      · exact hL hz
      · exact hP hz
    · intro z hz hmem
      have := hM' hmem
      simp only [List.mem_cons, List.not_mem_nil, or_false] at this
      rcases this with rfl | rfl
      · exact hP hz
      · exact hG hz
    · intro z hz hmem
      cases hz
      have := hM' hmem
      simp only [List.mem_cons, List.not_mem_nil, or_false] at this
      tauto

section

variable {k : Links α} {u v w : BinTree α}

omit [DecidableEq α] in
/-- Subtrees that are apart from the nodes that turn keep their links. -/
theorem Doubled.tree (hd : Doubled h k L P G u v ctx) (hw : h.Linked w)
    (hnodup : w.inorder.Nodup)
    (hoff : ∀ z ∈ w.inorder, z ≠ L ∧ z ≠ P ∧ z ≠ G ∧ z ∉ nodes ctx)
    (hroots : ∀ z ∈ w.inorder, w.root ≠ some z → u.root ≠ some z ∧ v.root ≠ some z) :
    k.Linked w := by
  apply hw.frame hd.agree hnodup
  · intro z hz
    simpa only [List.mem_cons, not_or] using hoff z hz
  · intro z hz hne
    obtain ⟨hL, hP, hG, -⟩ := hoff z hz
    simpa only [List.mem_cons, List.mem_append, Option.mem_toList, not_or, Option.mem_def] using
      ⟨hL, hP, hG, hroots z hz hne⟩

omit [DecidableEq α] in
theorem Doubled.stays (hd : Doubled h k L P G u v ctx) {p : α} (hw : h.ParentIs w.root p)
    (hoff : ∀ z ∈ w.inorder, z ≠ L ∧ z ≠ P ∧ z ≠ G ∧ z ∉ nodes ctx)
    (hroots : ∀ z ∈ w.inorder, u.root ≠ some z ∧ v.root ≠ some z) : k.ParentIs w.root p := by
  apply hw.frame hd.agree
  intro z hz
  have hmem := root_mem hz
  obtain ⟨hL, hP, hG, -⟩ := hoff z hmem
  simpa only [List.mem_cons, List.mem_append, Option.mem_toList, not_or, Option.mem_def] using
    ⟨hL, hP, hG, hroots z hmem⟩

end

/-- The facts that the rotations use of nodes that are all different. -/
structure Parts (L P G : α) (a b c t : BinTree α) (ctx : Context α) : Prop where
  turning : (L :: P :: G :: nodes ctx).Nodup
  hLP : L ≠ P
  hLG : L ≠ G
  hPG : P ≠ G
  hL : L ∉ nodes ctx
  hP : P ∉ nodes ctx
  hG : G ∉ nodes ctx
  nodup : a.inorder.Nodup ∧ b.inorder.Nodup ∧ c.inorder.Nodup ∧ t.inorder.Nodup
  off_a : ∀ z ∈ a.inorder, z ≠ L ∧ z ≠ P ∧ z ≠ G ∧ z ∉ nodes ctx
  off_b : ∀ z ∈ b.inorder, z ≠ L ∧ z ≠ P ∧ z ≠ G ∧ z ∉ nodes ctx
  off_c : ∀ z ∈ c.inorder, z ≠ L ∧ z ≠ P ∧ z ≠ G ∧ z ∉ nodes ctx
  off_t : ∀ z ∈ t.inorder, z ≠ L ∧ z ≠ P ∧ z ≠ G ∧ z ∉ nodes ctx
  hab : ∀ z ∈ a.inorder, z ∉ b.inorder
  hac : ∀ z ∈ a.inorder, z ∉ c.inorder
  hat : ∀ z ∈ a.inorder, z ∉ t.inorder
  hbc : ∀ z ∈ b.inorder, z ∉ c.inorder
  hbt : ∀ z ∈ b.inorder, z ∉ t.inorder
  hct : ∀ z ∈ c.inorder, z ∉ t.inorder

omit [DecidableEq α] in
theorem Parts.of_nodup (h : (L :: P :: G :: (a.inorder ++ (b.inorder ++ (c.inorder ++
    (t.inorder ++ nodes ctx))))).Nodup) : Parts L P G a b c t ctx := by
  simp only [List.nodup_cons, List.nodup_append, List.mem_append, List.mem_cons, not_or] at h
  obtain ⟨⟨hLP, hLG, hLa, hLb, hLc, hLt, hL⟩, ⟨hPG, hPa, hPb, hPc, hPt, hP⟩,
    ⟨hGa, hGb, hGc, hGt, hG⟩, hnda, ⟨hndb, ⟨hndc, ⟨hndt, hnd, ht⟩, hc⟩, hb⟩, ha⟩ := h
  have off (w : List α) (hw : L ∉ w ∧ P ∉ w ∧ G ∉ w) (hctx : ∀ z ∈ w, ∀ y ∈ nodes ctx, z ≠ y) :
      ∀ z ∈ w, z ≠ L ∧ z ≠ P ∧ z ≠ G ∧ z ∉ nodes ctx := by
    intro z hz
    refine ⟨?_, ?_, ?_, fun hmem => hctx z hz z hmem rfl⟩
    · intro heq
      exact hw.1 (heq ▸ hz)
    · intro heq
      exact hw.2.1 (heq ▸ hz)
    · intro heq
      exact hw.2.2 (heq ▸ hz)
  refine ⟨?_, hLP, hLG, hPG, hL, hP, hG, ⟨hnda, hndb, hndc, hndt⟩, off _ ⟨hLa, hPa, hGa⟩ ?_,
    off _ ⟨hLb, hPb, hGb⟩ ?_, off _ ⟨hLc, hPc, hGc⟩ ?_, off _ ⟨hLt, hPt, hGt⟩ ht, ?_, ?_, ?_, ?_,
    ?_, ?_⟩
  · simp only [List.nodup_cons, List.mem_cons, not_or]
    exact ⟨⟨hLP, hLG, hL⟩, ⟨hPG, hP⟩, hG, hnd⟩
  · intro z hz y hy
    exact ha z hz y (Or.inr (Or.inr (Or.inr hy)))
  · intro z hz y hy
    exact hb z hz y (Or.inr (Or.inr hy))
  · intro z hz y hy
    exact hc z hz y (Or.inr hy)
  · intro z hz hmem
    exact ha z hz z (Or.inl hmem) rfl
  · intro z hz hmem
    exact ha z hz z (Or.inr (Or.inl hmem)) rfl
  · intro z hz hmem
    exact ha z hz z (Or.inr (Or.inr (Or.inl hmem))) rfl
  · intro z hz hmem
    exact hb z hz z (Or.inl hmem) rfl
  · intro z hz hmem
    exact hb z hz z (Or.inr (Or.inl hmem)) rfl
  · intro z hz hmem
    exact hc z hz z (Or.inl hmem) rfl

omit [DecidableEq α] in
/-- No node of a subtree is the root of another one. -/
theorem root_ne {u v : BinTree α} (h : ∀ z ∈ u.inorder, z ∉ v.inorder) {z : α}
    (hz : z ∈ u.inorder) : v.root ≠ some z := fun hroot => h z hz (root_mem hroot)

omit [DecidableEq α] in
theorem root_ne' {u v : BinTree α} (h : ∀ z ∈ u.inorder, z ∉ v.inorder) {z : α}
    (hz : z ∈ v.inorder) : u.root ≠ some z := fun hroot => h z (root_mem hroot) hz

theorem zigzig_at (hat : h.At ctx (join d (join d (join d a L b) P c) G t)) :
    (zigzig d h L P G).At ctx (join d a L (join d b P (join d c G t))) := by
  obtain ⟨htree, hctx, hnodup⟩ := hat
  rw [root_join] at hctx
  obtain ⟨⟨-, -, htree⟩, hGt, htG, ht⟩ := linked_join.mp htree
  obtain ⟨⟨-, -, htree⟩, hPc, -, hc⟩ := linked_join.mp htree
  obtain ⟨⟨hLa, haL, ha⟩, hLb, -, hb⟩ := linked_join.mp htree
  have hperm (w : BinTree α) (hw : w = join d (join d (join d a L b) P c) G t ∨
      w = join d a L (join d b P (join d c G t))) : (w.inorder ++ nodes ctx).Perm
      (L :: P :: G :: (a.inorder ++ (b.inorder ++ (c.inorder ++ (t.inorder ++ nodes ctx))))) := by
    apply List.perm_iff_count.mpr
    intro z
    rcases hw with rfl | rfl
    all_goals
      cases d
      all_goals
        simp only [inorder_join, Bool.false_eq_true, if_false, if_true, List.count_append,
          List.count_cons]
        omega
  have hapart := (hperm _ (Or.inl rfl)).nodup_iff.mp hnodup
  have hnodup' := (hperm _ (Or.inr rfl)).nodup_iff.mpr hapart
  have parts := Parts.of_nodup hapart
  have heq : zigzig d h L P G = connect (connect (connectGreat
      (connect (connect h d P b.root) d G c.root) G L) (!d) L (some P)) (!d) P (some G) := by
    have hsame : (connect h d P b.root).child (!d) P = c.root := by
      simp [child_connect, hPc]
    rw [zigzig, hLb, hsame]
  have hmoved : ∀ z ∈ b.root.toList ++ c.root.toList, z ≠ G ∧ z ∉ nodes ctx := by
    intro z hz
    rw [List.mem_append, Option.mem_toList, Option.mem_toList] at hz
    rcases hz with hz | hz
    · exact (parts.off_b z (root_mem hz)).2.2
    · exact (parts.off_c z (root_mem hz)).2.2
  obtain ⟨hd, hgreat⟩ := doubled
    ((connect_agree h d P b.root).trans (connect_agree _ d G c.root)) hctx (by simp)
    (List.Subset.refl _) parts.turning hmoved
    ((connect_agree _ (!d) L (some P)).trans (connect_agree _ (!d) P (some G))) (by simp) (by simp)
  rw [← heq] at hd
  have hchild (z : α) (hz : z ∉ nodes ctx) (e : Bool) := hgreat.child z hz e
  have hLP := parts.hLP
  have hLG := parts.hLG
  have hPG := parts.hPG
  have hparent (z : α) (hz : z ≠ L ∧ z ≠ P ∧ z ≠ G ∧ z ∉ nodes ctx) :
      (zigzig d h L P G).parent z = (connect (connect h d P b.root) d G c.root).parent z := by
    rw [heq, parent_connect, if_neg (by simpa using Ne.symm hz.2.2.1), parent_connect,
      if_neg (by simpa using Ne.symm hz.2.1), hgreat.parent z (by simpa using hz.1)]
  refine ⟨linked_join.mpr ⟨⟨?_, ?_, ?_⟩, ?_, ?_, linked_join.mpr ⟨⟨?_, ?_, ?_⟩, ?_, ?_,
    linked_join.mpr ⟨⟨?_, ?_, ?_⟩, ?_, ?_, ?_⟩⟩⟩, ?_, hnodup'⟩
  · simp [heq, child_connect, hchild L parts.hL, hLP, hLG, hLa]
  · exact hd.stays haL parts.off_a fun z hz => ⟨root_ne parts.hab hz, root_ne parts.hac hz⟩
  · exact hd.tree ha parts.nodup.1 parts.off_a fun z hz _ =>
      ⟨root_ne parts.hab hz, root_ne parts.hac hz⟩
  · simp [heq, child_connect, hLP]
  · intro y hy
    rw [root_join] at hy
    cases hy
    simp [heq, parent_connect, Ne.symm hPG]
  · simp [heq, child_connect, hchild P parts.hP, hPG]
  · intro y hy
    have hmem := root_mem hy
    rw [hparent y (parts.off_b y hmem), parent_connect, if_neg (root_ne parts.hbc hmem),
      parent_connect, if_pos (Option.mem_def.mp hy)]
  · exact hd.tree hb parts.nodup.2.1 parts.off_b fun z hz hne => ⟨hne, root_ne parts.hbc hz⟩
  · simp [heq, child_connect]
  · intro y hy
    rw [root_join] at hy
    cases hy
    simp [heq, parent_connect]
  · simp [heq, child_connect, hchild G parts.hG]
  · intro y hy
    rw [hparent y (parts.off_c y (root_mem hy)), parent_connect, if_pos (Option.mem_def.mp hy)]
  · exact hd.tree hc parts.nodup.2.2.1 parts.off_c fun z hz hne => ⟨root_ne' parts.hbc hz, hne⟩
  · simp [heq, child_connect, hchild G parts.hG, Ne.symm hPG, Ne.symm hLG, hGt]
  · exact hd.stays htG parts.off_t fun z hz => ⟨root_ne' parts.hbt hz, root_ne' parts.hct hz⟩
  · exact hd.tree ht parts.nodup.2.2.2 parts.off_t fun z hz _ =>
      ⟨root_ne' parts.hbt hz, root_ne' parts.hct hz⟩
  · rw [root_join]
    exact hd.around

theorem zigzag_at (hat : h.At ctx (join (!d) (join d (join d a L b) P c) G t)) :
    (zigzag d h L P G).At ctx (join d (join d t G a) L (join d b P c)) := by
  rw [join_not] at hat
  obtain ⟨htree, hctx, hnodup⟩ := hat
  rw [root_join] at hctx
  obtain ⟨⟨hGt, htG, ht⟩, -, -, htree⟩ := linked_join.mp htree
  obtain ⟨⟨-, -, htree⟩, hPc, hcP, hc⟩ := linked_join.mp htree
  obtain ⟨⟨hLa, -, ha⟩, hLb, -, hb⟩ := linked_join.mp htree
  have hperm (w : BinTree α) (hw : w = join d t G (join d (join d a L b) P c) ∨
      w = join d (join d t G a) L (join d b P c)) : (w.inorder ++ nodes ctx).Perm
      (L :: P :: G :: (a.inorder ++ (b.inorder ++ (c.inorder ++ (t.inorder ++ nodes ctx))))) := by
    apply List.perm_iff_count.mpr
    intro z
    rcases hw with rfl | rfl
    all_goals
      cases d
      all_goals
        simp only [inorder_join, Bool.false_eq_true, if_false, if_true, List.count_append,
          List.count_cons]
        omega
  have hapart := (hperm _ (Or.inl rfl)).nodup_iff.mp hnodup
  have hnodup' := (hperm _ (Or.inr rfl)).nodup_iff.mpr hapart
  have parts := Parts.of_nodup hapart
  have hLP := parts.hLP
  have hLG := parts.hLG
  have hPG := parts.hPG
  have heq : zigzag d h L P G = connect (connect (connectGreat
      (connect (connect h (!d) G a.root) d P b.root) G L) d L (some G)) (!d) L (some P) := by
    have hsame : (connect h (!d) G a.root).child (!d) L = b.root := by
      simp [child_connect, hLb, hLG]
    rw [zigzag, hLa, hsame]
  have hmoved : ∀ z ∈ a.root.toList ++ b.root.toList, z ≠ G ∧ z ∉ nodes ctx := by
    intro z hz
    rw [List.mem_append, Option.mem_toList, Option.mem_toList] at hz
    rcases hz with hz | hz
    · exact (parts.off_a z (root_mem hz)).2.2
    · exact (parts.off_b z (root_mem hz)).2.2
  obtain ⟨hd, hgreat⟩ := doubled
    ((connect_agree h (!d) G a.root).trans (connect_agree _ d P b.root)) hctx (by simp)
    (List.Subset.refl _) parts.turning hmoved
    ((connect_agree _ d L (some G)).trans (connect_agree _ (!d) L (some P))) (by simp) (by simp)
  rw [← heq] at hd
  have hchild (z : α) (hz : z ∉ nodes ctx) (e : Bool) := hgreat.child z hz e
  have hparent (z : α) (hz : z ≠ L ∧ z ≠ P ∧ z ≠ G ∧ z ∉ nodes ctx) :
      (zigzag d h L P G).parent z = (connect (connect h (!d) G a.root) d P b.root).parent z := by
    rw [heq, parent_connect, if_neg (by simpa using Ne.symm hz.2.1), parent_connect,
      if_neg (by simpa using Ne.symm hz.2.2.1), hgreat.parent z (by simpa using hz.1)]
  refine ⟨linked_join.mpr ⟨⟨?_, ?_, linked_join.mpr ⟨⟨?_, ?_, ?_⟩, ?_, ?_, ?_⟩⟩, ?_, ?_,
    linked_join.mpr ⟨⟨?_, ?_, ?_⟩, ?_, ?_, ?_⟩⟩, ?_, hnodup'⟩
  · simp [heq, child_connect]
  · intro y hy
    rw [root_join] at hy
    cases hy
    simp [heq, parent_connect, hPG]
  · simp [heq, child_connect, hchild G parts.hG, Ne.symm hLG, Ne.symm hPG, hGt]
  · exact hd.stays htG parts.off_t fun z hz => ⟨root_ne' parts.hat hz, root_ne' parts.hbt hz⟩
  · exact hd.tree ht parts.nodup.2.2.2 parts.off_t fun z hz _ =>
      ⟨root_ne' parts.hat hz, root_ne' parts.hbt hz⟩
  · simp [heq, child_connect, hchild G parts.hG, Ne.symm hLG]
  · intro y hy
    have hmem := root_mem hy
    rw [hparent y (parts.off_a y hmem), parent_connect, if_neg (root_ne parts.hab hmem),
      parent_connect, if_pos (Option.mem_def.mp hy)]
  · exact hd.tree ha parts.nodup.1 parts.off_a fun z hz hne => ⟨hne, root_ne parts.hab hz⟩
  · simp [heq, child_connect]
  · intro y hy
    rw [root_join] at hy
    cases hy
    simp [heq, parent_connect]
  · simp [heq, child_connect, hchild P parts.hP, Ne.symm hLP]
  · intro y hy
    rw [hparent y (parts.off_b y (root_mem hy)), parent_connect, if_pos (Option.mem_def.mp hy)]
  · exact hd.tree hb parts.nodup.2.1 parts.off_b fun z hz hne => ⟨root_ne' parts.hab hz, hne⟩
  · simp [heq, child_connect, hchild P parts.hP, Ne.symm hLP, hPG, hPc]
  · exact hd.stays hcP parts.off_c fun z hz => ⟨root_ne' parts.hac hz, root_ne' parts.hbc hz⟩
  · exact hd.tree hc parts.nodup.2.2.1 parts.off_c fun z hz _ =>
      ⟨root_ne' parts.hac hz, root_ne' parts.hbc hz⟩
  · rw [root_join]
    exact hd.around

end

end SdkTools.MemoryCache
