import SdkTools.MemoryCache.SplayDelete

/-!
# The exchange with the predecessor

The predecessor is the right most node of the left subtree, and has no right child; it may
be the left child of the node itself.
-/

namespace SdkTools.MemoryCache

open Lib Lib.BinTree Lib.Context Lib.Links

set_option autoImplicit false

variable {α : Type} [DecidableEq α] {h k : Links α} {x y : α} {yl r : BinTree α}
  {cs ctx : Context α}

/-! ### The predecessor -/

omit [DecidableEq α] in
/-- The right most node of a subtree, at the end of right children. -/
theorem rightMost_spec {l : BinTree α} {z : α} (hl : h.Linked l) (hroot : l.root = some z)
    {fuel : Nat} (hfuel : l.inorder.length ≤ fuel) :
    ∃ cs yl y, l = plug cs (node yl y leaf) ∧ (∀ f ∈ cs, f.d = true) ∧
      rightMost h fuel z = some y := by
  induction l generalizing z fuel with
  | leaf => cases hroot
  | node a w b _ ih =>
    cases hroot
    obtain ⟨-, hright, -, hb⟩ := hl
    simp only [inorder, List.length_append, List.length_cons] at hfuel
    obtain ⟨fuel, rfl⟩ : ∃ n, fuel = n + 1 := ⟨fuel - 1, by omega⟩
    cases hbroot : b.root with
    | none =>
      rw [hbroot] at hright
      refine ⟨[], a, w, ?_, ?_, ?_⟩
      · rw [root_eq_none hbroot]
        rfl
      · intro f hf
        cases hf
      · rw [rightMost, hright]
    | some v =>
      rw [hbroot] at hright
      obtain ⟨cs, yl, y, rfl, hcs, hrun⟩ := ih hb hbroot (show b.inorder.length ≤ fuel by omega)
      refine ⟨cs ++ [⟨true, w, a⟩], yl, y, ?_, ?_, ?_⟩
      · rw [plug_append]
        rfl
      · intro f hf
        rcases List.mem_append.mp hf with hf | hf
        · exact hcs f hf
        · rw [List.mem_singleton.mp hf]
      · rw [rightMost, hright]
        exact hrun

omit [DecidableEq α] in
/-- Behind right children nothing follows. -/
theorem inorder_right (hcs : ∀ f ∈ cs, f.d = true) :
    ∃ before, ∀ t : BinTree α, (plug cs t).inorder = before ++ t.inorder := by
  induction cs with
  | nil => exact ⟨[], fun _ => rfl⟩
  | cons f cs ih =>
    obtain ⟨hf, hcs⟩ := List.forall_mem_cons.mp hcs
    obtain ⟨before, hbefore⟩ := ih hcs
    refine ⟨before ++ (f.sibling.inorder ++ [f.x]), fun t => ?_⟩
    rw [plug, hbefore, inorder_join, hf, if_pos rfl]
    simp

/-! ### The last assignments -/

def fixParents (h : Links α) (Link1 Link2 : α) : Links α :=
  fixParent (fixParent (fixParent (fixParent h false Link1) true Link1) false Link2) true Link2

theorem child_fixParent (d e : Bool) (z w : α) : (fixParent h d z).child e w = h.child e w := by
  unfold fixParent
  split <;> rfl

theorem parent_fixParent (d : Bool) (z w : α) :
    (fixParent h d z).parent w = if h.child d z = some w then z else h.parent w := by
  unfold fixParent
  split
  · rename_i hnone
    rw [if_neg (by rw [hnone]; exact fun hc => by cases hc)]
  · rename_i v hv
    rw [parent_setParent, hv]
    by_cases hwv : w = v
    · rw [if_pos hwv, if_pos (congrArg some hwv.symm)]
    · rw [if_neg hwv, if_neg (by simpa using Ne.symm hwv)]

theorem child_fixParents (e : Bool) (w : α) : (fixParents h y x).child e w = h.child e w := by
  simp only [fixParents, child_fixParent]

theorem parent_fixParents (w : α) :
    (fixParents h y x).parent w =
      if h.child true x = some w then x else if h.child false x = some w then x
      else if h.child true y = some w then y else if h.child false y = some w then y
      else h.parent w := by
  simp only [fixParents, parent_fixParent, child_fixParent]

/-! ### The exchange -/

/-- What the exchange leaves behind before the last assignments. -/
structure Exchanged (h k : Links α) (x y : α) (yl r : BinTree α) (cs ctx : Context α) : Prop where
  left_y : k.child false y = (plug cs (node yl x leaf)).root
  right_y : k.child true y = r.root
  left_x : k.child false x = yl.root
  right_x : k.child true x = none
  around : k.LinkedCtx ctx (some y)
  agree : Agree (x :: y :: ((cs.take 1).map Frame.x ++ nodes ctx)) [x, y] h k
  hole : ∀ f ∈ cs.head?, k.child true f.x = some x ∧ k.parent x = f.x ∧
    k.child false f.x = h.child false f.x

omit [DecidableEq α] in
/-- The two nodes, the subtrees and the frames of an exchange. -/
theorem nodup_exchange [BEq α] [LawfulBEq α] (v w : α) :
    ((node (plug cs (node yl v leaf)) w r).inorder ++ nodes ctx).Perm
      (w :: v :: (yl.inorder ++ (nodes cs ++ (r.inorder ++ nodes ctx)))) := by
  apply List.perm_iff_count.mpr
  intro z
  have hplug := (perm_plug cs (node yl v leaf)).count_eq z
  simp only [inorder, List.count_append, List.count_cons, List.count_nil] at hplug ⊢
  omega

/-- After the last assignments the two nodes have changed places. -/
theorem Exchanged.fixed (hex : Exchanged h k x y yl r cs ctx)
    (hat : h.At ctx (node (plug cs (node yl y leaf)) x r)) (hcs : ∀ f ∈ cs, f.d = true) :
    (fixParents k y x).At ctx (node (plug cs (node yl x leaf)) y r) := by
  have hapart := (nodup_exchange y x).nodup_iff.mp hat.nodup
  have hndA := (List.nodup_append.mp (List.nodup_append.mp hat.nodup).1).1
  have hnodup' := (nodup_exchange x y).nodup_iff.mpr ((List.Perm.swap _ _ _).nodup_iff.mp hapart)
  simp only [List.nodup_cons, List.nodup_append, List.mem_append, List.mem_cons, not_or] at hapart
  obtain ⟨⟨hxy, hxyl, hxcs, hxr, hxctx⟩, ⟨hyyl, hycs, hyr, hyctx⟩, hndyl,
    ⟨hndcs, ⟨hndr, hndctx, hrctx⟩, hcsr⟩, hylr⟩ := hapart
  obtain ⟨⟨⟨hleft, hleftParent, hA⟩, hright, hrightParent, hr⟩, -, -⟩ := hat
  generalize hB : plug cs (node yl x leaf) = B at *
  have hBroot (z : α) (hz : B.root = some z) : z = x ∨ z ∈ nodes cs := by
    rw [← hB] at hz
    rcases root_plug_mem hz with hroot | hmem
    · exact Or.inl (Option.some.inj hroot).symm
    · exact Or.inr hmem
  have hfix : Agree [] (yl.root.toList ++ (r.root.toList ++ B.root.toList)) k
      (fixParents k y x) := by
    refine ⟨fun z _ e => child_fixParents e z, fun z hz => ?_⟩
    simp only [List.mem_append, Option.mem_toList, not_or] at hz
    rw [parent_fixParents, hex.right_x, if_neg (by simp), hex.left_x, if_neg hz.1, hex.right_y,
      if_neg hz.2.1, hex.left_y, hB, if_neg hz.2.2]
  have hall := hex.agree.trans hfix
  have hfirst (z : α) (hz : z ∈ (cs.take 1).map Frame.x) : z ∈ nodes cs := by
    obtain ⟨f, hf, rfl⟩ := List.mem_map.mp hz
    exact List.mem_flatMap.mpr ⟨f, List.mem_of_mem_take hf, List.mem_cons_self⟩
  have frame (w : BinTree α) (hw : h.Linked w) (hnd : w.inorder.Nodup)
      (hoff : ∀ z ∈ w.inorder, z ≠ x ∧ z ≠ y ∧ z ∉ (cs.take 1).map Frame.x ∧ z ∉ nodes ctx)
      (hroots : ∀ z ∈ w.inorder, w.root ≠ some z →
        yl.root ≠ some z ∧ r.root ≠ some z ∧ B.root ≠ some z) :
      (fixParents k y x).Linked w := by
    apply hw.frame hall hnd
    · intro z hz
      simpa only [List.mem_cons, List.mem_append, not_or, List.not_mem_nil, not_false_eq_true,
        and_true] using hoff z hz
    · intro z hz hne
      obtain ⟨hzx, hzy, -, -⟩ := hoff z hz
      simpa only [List.mem_cons, List.mem_append, not_or, List.not_mem_nil, not_false_eq_true,
        and_true, Option.mem_toList, Option.mem_def, and_assoc] using
        ⟨hzx, hzy, hroots z hz hne⟩
  have hylx (z : α) (hz : z ∈ yl.inorder) : z ≠ x ∧ z ≠ y := by
    constructor
    · intro heq
      exact hxyl (heq ▸ hz)
    · intro heq
      exact hyyl (heq ▸ hz)
  have hrx (z : α) (hz : z ∈ r.inorder) : z ≠ x ∧ z ≠ y := by
    constructor
    · intro heq
      exact hxr (heq ▸ hz)
    · intro heq
      exact hyr (heq ▸ hz)
  have hBr (z : α) (hz : z ∈ r.inorder) : B.root ≠ some z := by
    intro hroot
    rcases hBroot z hroot with heq | hmem
    · exact (hrx z hz).1 heq
    · exact hcsr z hmem z (Or.inl hz) rfl
  have hBctx (z : α) (hz : z = y ∨ z ∈ nodes ctx) : B.root ≠ some z := by
    intro hroot
    rcases hBroot z hroot with rfl | hmem
    · rcases hz with heq | hz
      · exact hxy heq
      · exact hxctx hz
    · rcases hz with rfl | hz
      · exact hycs hmem
      · exact hcsr z hmem z (Or.inr hz) rfl
  -- The subtree of the node in its new place.
  have hlow : (fixParents k y x).Linked (node yl x leaf) := by
    refine ⟨⟨?_, ?_, ?_⟩, ?_, ?_, trivial⟩
    · rw [child_fixParents, hex.left_x]
    · intro z hz
      rw [parent_fixParents, hex.right_x, if_neg (by simp), hex.left_x,
        if_pos (Option.mem_def.mp hz)]
    · have hyl : h.Linked yl := hA.of_plug.1.2.2
      apply frame yl hyl hndyl
      · intro z hz
        refine ⟨(hylx z hz).1, (hylx z hz).2, ?_, ?_⟩
        · intro hmem
          exact hylr z hz z (Or.inl (hfirst z hmem)) rfl
        · intro hmem
          exact hylr z hz z (Or.inr (Or.inr hmem)) rfl
      · intro z hz hne
        refine ⟨hne, ?_, ?_⟩
        · intro hroot
          exact hylr z hz z (Or.inr (Or.inl (root_mem hroot))) rfl
        · intro hroot
          rcases hBroot z hroot with heq | hmem
          · exact (hylx z hz).1 heq
          · exact hylr z hz z (Or.inl hmem) rfl
    · rw [child_fixParents, hex.right_x]
      rfl
    · intro z hz
      cases hz
  refine ⟨⟨⟨?_, ?_, ?_⟩, ?_, ?_, ?_⟩, ?_, hnodup'⟩
  · rw [child_fixParents, hex.left_y, hB]
  · intro z hz
    have hzr : r.root ≠ some z := fun hroot => hBr z (root_mem hroot) hz
    have hzyl : yl.root ≠ some z := by
      intro hroot
      rcases hBroot z hz with heq | hmem
      · exact (hylx z (root_mem hroot)).1 heq
      · exact hylr z (root_mem hroot) z (Or.inl hmem) rfl
    rw [parent_fixParents, hex.right_x, if_neg (by simp), hex.left_x, if_neg hzyl, hex.right_y,
      if_neg hzr, hex.left_y, hB, if_pos (Option.mem_def.mp hz)]
  · cases cs with
    | nil =>
      rw [← hB]
      exact hlow
    | cons f cs =>
      obtain ⟨d, p, s⟩ := f
      obtain rfl : d = true := hcs _ List.mem_cons_self
      obtain ⟨hhole, hholeParent, hholeSibling⟩ := hex.hole _ rfl
      have hndt := (perm_plug (⟨true, p, s⟩ :: cs) (node yl y leaf)).nodup_iff.mp hndA
      have hndj := (perm_cons ⟨true, p, s⟩ cs (node yl y leaf)).nodup_iff.mp hndt
      change h.Linked (plug cs (join true (node yl y leaf) p s)) at hA
      obtain ⟨-, hps, hsp, hs⟩ := linked_join.mp hA.of_plug
      have hnot (z : α) (hz : z ∈ nodes (⟨true, p, s⟩ :: cs)) :
          z ≠ x ∧ z ≠ y ∧ yl.root ≠ some z ∧ r.root ≠ some z ∧ z ∉ nodes ctx := by
        refine ⟨?_, ?_, ?_, ?_, ?_⟩
        · intro heq
          exact hxcs (heq ▸ hz)
        · intro heq
          exact hycs (heq ▸ hz)
        · intro hroot
          exact hylr z (root_mem hroot) z (Or.inl hz) rfl
        · intro hroot
          exact hcsr z hz z (Or.inl (root_mem hroot)) rfl
        · intro hmem
          exact hcsr z hz z (Or.inr hmem) rfl
      have hBtop (z : α) (hz : B.root = some z) : z = p ∨ z ∈ nodes cs := by
        rw [← hB] at hz
        change (plug cs (join true (node yl x leaf) p s)).root = some z at hz
        rcases root_plug_mem hz with hroot | hmem
        · exact Or.inl (Option.some.inj hroot).symm
        · exact Or.inr hmem
      have hBeq : B.root = (plug cs (join true (node yl y leaf) p s)).root := by
        rw [← hB]
        exact root_plug_congr (by rw [root_join, root_join]) cs
      rw [nodes_cons] at hndcs hnot
      obtain ⟨hpcs, hndcs⟩ := List.nodup_cons.mp hndcs
      obtain ⟨hnds, -, hscs⟩ := List.nodup_append.mp hndcs
      have hsB (z : α) (hz : z ∈ s.inorder) : B.root ≠ some z := by
        intro hroot
        rcases hBtop z hroot with rfl | hmem
        · exact hpcs (List.mem_append_left _ hz)
        · exact hscs z hz z hmem rfl
      have hsnot (z : α) (hz : z ∈ s.inorder) :=
        hnot z (List.mem_cons_of_mem _ (List.mem_append_left _ hz))
      rw [← hB]
      change (fixParents k y x).Linked (plug cs (join true (node yl x leaf) p s))
      refine Linked.plug_frame hall hA hndj ?_ ?_ (by rw [root_join, root_join])
        (linked_join.mpr ⟨⟨?_, ?_, hlow⟩, ?_, ?_, ?_⟩)
      · intro z hz
        obtain ⟨hzx, hzy, -, -, hzctx⟩ :=
          hnot z (List.mem_cons_of_mem _ (List.mem_append_right _ hz))
        have hzp : z ≠ p := by
          intro heq
          exact hpcs (List.mem_append_right _ (heq ▸ hz))
        simp [hzx, hzy, hzp, hzctx]
      · intro z hz hne
        have hmem : z ∈ p :: (s.inorder ++ nodes cs) := by
          rcases hz with hroot | hz
          · rw [root_join] at hroot
            cases hroot
            exact List.mem_cons_self
          · exact List.mem_cons_of_mem _ (List.mem_append_right _ hz)
        obtain ⟨hzx, hzy, hzyl, hzr, -⟩ := hnot z hmem
        have hzB : B.root ≠ some z := by
          rw [hBeq]
          exact hne
        simp [hzx, hzy, hzyl, hzr, hzB]
      · rw [child_fixParents, hhole]
        rfl
      · intro z hz
        cases hz
        have hxB : B.root ≠ some x := by
          intro hroot
          rcases hBtop x hroot with heq | hmem
          · exact (hnot p List.mem_cons_self).1 heq.symm
          · exact (hnot x (List.mem_cons_of_mem _ (List.mem_append_right _ hmem))).1 rfl
        rw [parent_fixParents, hex.right_x, if_neg (by simp), hex.left_x,
          if_neg fun hroot => hxyl (root_mem hroot), hex.right_y,
          if_neg fun hroot => hxr (root_mem hroot), hex.left_y, hB, if_neg hxB, hholeParent]
      · rw [child_fixParents]
        exact hholeSibling.trans hps
      · apply hsp.frame hall
        intro z hz
        obtain ⟨hzx, hzy, hzyl, hzr, -⟩ := hsnot z (root_mem hz)
        simp [hzx, hzy, hzyl, hzr, hsB z (root_mem hz)]
      · apply frame s hs hnds
        · intro z hz
          obtain ⟨hzx, hzy, -, -, hzctx⟩ := hsnot z hz
          refine ⟨hzx, hzy, ?_, hzctx⟩
          intro hmem
          simp only [List.take_succ_cons, List.take_zero, List.map_cons, List.map_nil,
            List.mem_singleton] at hmem
          exact hpcs (List.mem_append_left _ (hmem ▸ hz))
        · intro z hz _
          obtain ⟨-, -, hzyl, hzr, -⟩ := hsnot z hz
          exact ⟨hzyl, hzr, hsB z hz⟩
  · rw [child_fixParents, hex.right_y]
  · intro z hz
    have hmem := root_mem hz
    have hzyl : yl.root ≠ some z := by
      intro hroot
      exact hylr z (root_mem hroot) z (Or.inr (Or.inl hmem)) rfl
    rw [parent_fixParents, hex.right_x, if_neg (by simp), hex.left_x, if_neg hzyl, hex.right_y,
      if_pos (Option.mem_def.mp hz)]
  · apply frame r hr hndr
    · intro z hz
      refine ⟨(hrx z hz).1, (hrx z hz).2, ?_, ?_⟩
      · intro hmem
        exact hcsr z (hfirst z hmem) z (Or.inl hz) rfl
      · intro hmem
        exact hrctx z hz z hmem rfl
    · intro z hz hne
      refine ⟨?_, hne, hBr z hz⟩
      intro hroot
      exact hylr z (root_mem hroot) z (Or.inr (Or.inl hz)) rfl
  · have hoff (z : α) (hz : z = y ∨ z ∈ nodes ctx) :
        z ∉ yl.root.toList ++ (r.root.toList ++ B.root.toList) := by
      simp only [List.mem_append, Option.mem_toList, not_or]
      refine ⟨?_, ?_, hBctx z hz⟩
      · intro hroot
        have hmem := root_mem hroot
        rcases hz with rfl | hz
        · exact hyyl hmem
        · exact hylr z hmem z (Or.inr (Or.inr hz)) rfl
      · intro hroot
        have hmem := root_mem hroot
        rcases hz with rfl | hz
        · exact hyr hmem
        · exact hrctx z hmem z hz rfl
    apply hex.around.frame hfix hndctx
    · intro _ _
      exact List.not_mem_nil
    · intro z hz
      exact hoff z (Or.inr hz)
    · intro z hz
      cases hz
      exact hoff y (Or.inl rfl)

/-! ### The exchange itself -/

theorem child_swapChildren (d e : Bool) (v w z : α) :
    (swapChildren h d v w).child e z =
      if e = d ∧ z = w then h.child d v else if e = d ∧ z = v then h.child d w
      else h.child e z := rfl

theorem swapChildren_agree (h : Links α) (d : Bool) (v w : α) :
    Agree ([v] ++ [w]) ([] ++ []) h (swapChildren h d v w) :=
  (setChild_agree h d v _).trans (setChild_agree _ d w _)

def swapBoth (h : Links α) (v w : α) : Links α :=
  swapChildren (swapChildren h false v w) true v w

theorem swapBoth_agree (h : Links α) (v w : α) : Agree [w, v] [] h (swapBoth h v w) := by
  apply ((swapChildren_agree h false v w).trans (swapChildren_agree _ true v w)).mono
  · intro z hz
    simp only [List.mem_append, List.mem_singleton] at hz
    simp only [List.mem_cons, List.not_mem_nil, or_false]
    tauto
  · simp

theorem child_swapBoth_left (e : Bool) {v w : α} (hvw : v ≠ w) :
    (swapBoth h v w).child e v = h.child e w := by
  cases e <;> simp [swapBoth, child_swapChildren, hvw]

theorem child_swapBoth_right (e : Bool) {v w : α} (hvw : v ≠ w) :
    (swapBoth h v w).child e w = h.child e v := by
  cases e <;> simp [swapBoth, child_swapChildren, hvw]

theorem takePlace_eq (hxy : x ≠ y) : takePlace h y x = connectGreat h x y := by
  unfold takePlace connectGreat
  cases hroot : RtlIsRoot h x with
  | true => rfl
  | false =>
    have hsame : setParentsChild (setParent h y (h.parent x)) x (some y) =
        setParent (setParentsChild h x (some y)) y (h.parent x) := by
      unfold setParentsChild RtlIsLeftChild
      rw [parent_setParent, if_neg hxy]
      rfl
    exact hsame.symm

/-- The predecessor is the left child. -/
theorem exchanged_child (hat : h.At ctx (node (node yl y leaf) x r)) :
    Exchanged h (swapPlaces h y x) x y yl r [] ctx := by
  have hnodup : ((node (plug [] (node yl y leaf)) x r).inorder ++ nodes ctx).Nodup := hat.nodup
  have hapart := (nodup_exchange y x).nodup_iff.mp hnodup
  simp only [nodes, List.flatMap_nil, List.nil_append, List.nodup_cons, List.nodup_append,
    List.mem_append, List.mem_cons, not_or] at hapart
  obtain ⟨⟨hxy, -, -, hxctx⟩, ⟨-, -, hyctx⟩, -, ⟨-, hndctx, -⟩, -⟩ := hapart
  obtain ⟨⟨⟨hxl, hxp, ⟨hyl, -, -⟩, hyr, -, -⟩, hxr, -, -⟩, haround, -⟩ := hat
  obtain ⟨hctx, hgreat⟩ := connectGreat_spec haround hndctx hxctx hyctx hxy
  have hparent : h.parent y = x := hxp y rfl
  have hchild (e : Bool) (z : α) (hz : z ∉ nodes ctx) := hgreat.child z hz e
  have heq : swapPlaces h y x = setChild (swapBoth (connectGreat h x y) y x) false y (some x) := by
    have hleft : (swapBoth (connectGreat h x y) y x).child false y = some y := by
      rw [child_swapBoth_left false (Ne.symm hxy), hchild false x hxctx, hxl]
      rfl
    unfold swapPlaces
    rw [if_neg (not_not.mpr hparent), takePlace_eq hxy]
    exact if_pos hleft
  have hagree : Agree ([x, y] ++ [y]) ([] ++ []) (connectGreat h x y) (swapPlaces h y x) := by
    rw [heq]
    exact (swapBoth_agree _ y x).trans (setChild_agree _ false y (some x))
  refine ⟨?_, ?_, ?_, ?_, ?_, ?_, ?_⟩
  · rw [heq, child_setChild, if_pos ⟨rfl, rfl⟩]
    rfl
  · rw [heq, child_setChild, if_neg (by simp), child_swapBoth_left true (Ne.symm hxy),
      hchild true x hxctx, hxr]
  · rw [heq, child_setChild, if_neg (by simp [hxy]), child_swapBoth_right false (Ne.symm hxy),
      hchild false y hyctx, hyl]
  · rw [heq, child_setChild, if_neg (by simp), child_swapBoth_right true (Ne.symm hxy),
      hchild true y hyctx, hyr]
    rfl
  · apply hctx.frame hagree hndctx
    · intro z hz hmem
      simp only [List.mem_append, List.mem_cons, List.not_mem_nil, or_false] at hmem
      rcases hmem with (rfl | rfl) | rfl
      · exact hxctx hz
      · exact hyctx hz
      · exact hyctx hz
    · simp
    · simp
  · apply (hgreat.trans hagree).mono
    · intro z hz
      simp only [List.mem_append, List.mem_cons, List.not_mem_nil, or_false] at hz
      simp only [List.take_nil, List.map_nil, List.nil_append, List.mem_cons]
      tauto
    · simp
  · intro f hf
    cases hf

/-- The initial steps put the predecessor in the place of the node, and the node behind the
parent of the predecessor. -/
theorem swapSlots_eq {p : α} {s : BinTree α} {rest : Context α}
    (hy : h.LinkedCtx (⟨true, p, s⟩ :: rest) (some y)) (hys : y ∉ s.inorder)
    (hx : h.LinkedCtx ctx (some x)) (hxctx : x ∉ nodes ctx) (hpctx : p ∉ nodes ctx)
    (hxy : x ≠ y) :
    swapSlots h y x = connect (connectGreat h x y) true p (some x) := by
  have hparent : h.parent y = p := hy.1.2 y rfl
  have hleft : RtlIsLeftChild h y = false := isLeftChild_eq hy hys
  have hchild : h.child true p = some y := hy.1.1
  unfold swapSlots
  cases ctx with
  | nil =>
    have hroot : RtlIsRoot h x = true := isRoot_of_nil hx
    have hgreat : connectGreat h x y = setParent h y y := by
      rw [connectGreat, if_pos hroot]
    rw [hgreat, hroot, setParentsChild_eq hy hys]
    apply links_ext
    · intro z
      change (setParent (setParent h x (h.parent y)) y y).parent z =
        (setParent (setParent h y y) x p).parent z
      simp only [parent_setParent, hparent]
      by_cases hzy : z = y
      · rw [if_pos hzy, if_neg (by rw [hzy]; exact Ne.symm hxy), if_pos hzy]
      · rw [if_neg hzy, if_neg hzy]
    · intro d z
      rfl
  | cons f ctx =>
    have hnodes := hxctx
    rw [nodes_cons, List.mem_cons, List.mem_append, not_or, not_or] at hnodes hpctx
    have hroot : RtlIsRoot h x = false := not_isRoot hx hnodes.1
    have hxleft : RtlIsLeftChild h x = !f.d := isLeftChild_eq hx hnodes.2.1
    have hxparent : h.parent x = f.x := hx.1.2 x rfl
    have hxchild : h.child f.d f.x = some x := hx.1.1
    rw [connectGreat_cons hx hxctx hxy, hroot]
    simp only [Bool.not_false, if_true, hleft, hxleft, Bool.not_not, hparent, hxparent, hchild,
      hxchild]
    apply links_ext
    · intro z
      rfl
    · intro d z
      change (setChild (setChild h true p (some x)) f.d f.x (some y)).child d z =
        (setChild (setChild h f.d f.x (some y)) true p (some x)).child d z
      simp only [child_setChild]
      by_cases hz : d = f.d ∧ z = f.x
      · rw [if_pos hz, if_pos hz, if_neg]
        intro hboth
        exact hpctx.1 (hboth.2.symm.trans hz.2)
      · rw [if_neg hz, if_neg hz]

/-- The predecessor is at the end of right children. -/
theorem exchanged_deep {p : α} {s : BinTree α}
    (hat : h.At ctx (node (plug (⟨true, p, s⟩ :: cs) (node yl y leaf)) x r)) :
    Exchanged h (swapPlaces h y x) x y yl r (⟨true, p, s⟩ :: cs) ctx := by
  have hapart := (nodup_exchange y x).nodup_iff.mp hat.nodup
  rw [nodes_cons] at hapart
  simp only [List.nodup_cons, List.nodup_append, List.mem_append, List.mem_cons, not_or] at hapart
  obtain ⟨⟨hxy, -, ⟨hxp, -⟩, -, hxctx⟩, ⟨-, ⟨hyp, hys, -⟩, -, hyctx⟩, -,
    ⟨-, ⟨-, hndctx, -⟩, hcsctx⟩, -⟩ := hapart
  have hpctx : p ∉ nodes ctx := fun hmem => hcsctx p (Or.inl rfl) p (Or.inr hmem) rfl
  have hplace : h.At (⟨false, x, r⟩ :: ctx) (plug (⟨true, p, s⟩ :: cs) (node yl y leaf)) :=
    At.cons_iff.mpr hat
  have hdeep := At.append_iff.mpr hplace
  obtain ⟨⟨hyl, -, -⟩, hyr, -, -⟩ := hdeep.tree
  have hy : h.LinkedCtx (⟨true, p, s⟩ :: (cs ++ ⟨false, x, r⟩ :: ctx)) (some y) := hdeep.around
  obtain ⟨⟨⟨hxl, -, -⟩, hxr, -, -⟩, haround, -⟩ := hat
  obtain ⟨hctx, hgreat⟩ := connectGreat_spec haround hndctx hxctx hyctx hxy
  have hparent : h.parent y = p := hy.1.2 y rfl
  have heq : swapPlaces h y x =
      swapBoth (connect (connectGreat h x y) true p (some x)) y x := by
    unfold swapPlaces
    rw [if_pos (by rw [hparent]; exact Ne.symm hxp), swapSlots_eq hy hys haround hxctx hpctx hxy]
    rfl
  have hchild (e : Bool) (z : α) (hz : z ∉ nodes ctx) := hgreat.child z hz e
  have hboth := swapBoth_agree (connect (connectGreat h x y) true p (some x)) y x
  have hagree := (connect_agree (connectGreat h x y) true p (some x)).trans hboth
  rw [← heq] at hboth hagree
  have hxy' : y ≠ x := Ne.symm hxy
  refine ⟨?_, ?_, ?_, ?_, ?_, ?_, ?_⟩
  · rw [heq, child_swapBoth_left false hxy', child_connect, if_neg (by simp),
      hchild false x hxctx, hxl]
    change (plug cs (join true (node yl y leaf) p s)).root =
      (plug cs (join true (node yl x leaf) p s)).root
    exact root_plug_congr (by rw [root_join, root_join]) cs
  · rw [heq, child_swapBoth_left true hxy', child_connect, if_neg (by simp [hxp]),
      hchild true x hxctx, hxr]
  · rw [heq, child_swapBoth_right false hxy', child_connect, if_neg (by simp),
      hchild false y hyctx, hyl]
  · rw [heq, child_swapBoth_right true hxy', child_connect, if_neg (by simp [hyp]),
      hchild true y hyctx, hyr]
    rfl
  · apply hctx.frame hagree hndctx
    · intro z hz hmem
      simp only [List.mem_append, List.mem_cons, List.not_mem_nil, or_false] at hmem
      rcases hmem with rfl | rfl | rfl
      · exact hpctx hz
      · exact hxctx hz
      · exact hyctx hz
    · intro z hz hmem
      simp only [Option.toList_some, List.append_nil, List.mem_singleton] at hmem
      exact hxctx (hmem ▸ hz)
    · intro z hz hmem
      cases hz
      simp only [Option.toList_some, List.append_nil, List.mem_singleton] at hmem
      exact hxy hmem.symm
  · apply (hgreat.trans hagree).mono
    · intro z hz
      simp only [List.mem_append, List.mem_cons, List.not_mem_nil, or_false] at hz
      simp only [List.take_succ_cons, List.take_zero, List.map_cons, List.map_nil,
        List.cons_append, List.nil_append, List.mem_cons]
      tauto
    · intro z hz
      simp only [Option.toList_some, List.append_nil, List.mem_append, List.mem_singleton] at hz
      simp only [List.mem_cons, List.not_mem_nil, or_false]
      tauto
  · intro f hf
    cases hf
    have hp : p ∉ [x, y] := by simp [Ne.symm hxp, Ne.symm hyp]
    refine ⟨?_, ?_, ?_⟩
    · rw [hboth.child p hp, child_connect, if_pos ⟨rfl, rfl⟩]
    · rw [hboth.parent x List.not_mem_nil, parent_connect, if_pos rfl]
    · rw [hboth.child p hp, child_connect, if_neg (by simp), hchild false p hpctx]

/-- The node and its predecessor change places. -/
theorem SwapSplayLinks_at (hat : h.At ctx (node (plug cs (node yl y leaf)) x r))
    (hcs : ∀ f ∈ cs, f.d = true) :
    (SwapSplayLinks h y x).At ctx (node (plug cs (node yl x leaf)) y r) := by
  have hapart := (nodup_exchange y x).nodup_iff.mp hat.nodup
  simp only [List.nodup_cons, List.mem_append, List.mem_cons, not_or] at hapart
  obtain ⟨⟨hxy, -, hxcs, -, -⟩, ⟨-, hycs, -, hyctx⟩, -⟩ := hapart
  have hplace : h.At (⟨false, x, r⟩ :: ctx) (plug cs (node yl y leaf)) := At.cons_iff.mpr hat
  have hdeep := (At.append_iff.mpr hplace).around
  have hyroot : RtlIsRoot h y = false := by
    cases cs with
    | nil => exact not_isRoot hdeep (Ne.symm hxy)
    | cons f cs =>
      rw [nodes_cons, List.mem_cons, not_or] at hycs
      exact not_isRoot hdeep hycs.1
  have hparent : h.parent x ≠ y := by
    have haround := hat.around
    cases ctx with
    | nil =>
      rw [haround x rfl]
      exact hxy
    | cons f ctx =>
      rw [haround.1.2 x rfl]
      rw [nodes_cons, List.mem_cons, not_or] at hyctx
      exact Ne.symm hyctx.1
  have heq : SwapSplayLinks h y x = fixParents (swapPlaces h y x) y x := by
    unfold SwapSplayLinks
    rw [hyroot, decide_eq_false hparent]
    rfl
  rw [heq]
  cases cs with
  | nil => exact (exchanged_child hat).fixed hat hcs
  | cons f cs =>
    obtain ⟨d, p, s⟩ := f
    obtain rfl : d = true := hcs _ List.mem_cons_self
    exact (exchanged_deep hat).fixed hat hcs

/-! ### `pRtlDelete` -/

/-- The node goes, and the rest of the sequence stays. -/
theorem pRtlDelete_at {l : BinTree α} {fuel : Nat} (hat : h.At ctx (node l x r))
    (hfuel : (plug ctx (node l x r)).inorder.length ≤ fuel) :
    ∃ h' root t u, pRtlDelete fuel h x = some (h', root) ∧ h'.IsTree root t ∧
      u.inorder = l.inorder ++ r.inorder ∧ t.inorder = (plug ctx u).inorder := by
  obtain ⟨⟨hleft, -, hl⟩, hright, -, -⟩ := hat.tree
  have hlen := length_plug ctx (node l x r)
  unfold pRtlDelete
  by_cases hone : l = leaf ∨ r = leaf
  · have hchildren : ¬ (h.child false x ≠ none ∧ h.child true x ≠ none) := by
      rw [hleft, hright]
      rintro ⟨hl, hr⟩
      rcases hone with rfl | rfl
      · exact hl rfl
      · exact hr rfl
    rw [if_neg hchildren]
    have hframes : ctx.length ≤ fuel := by omega
    rcases hone with rfl | rfl
    · obtain ⟨h', root, t, hrun, htree, horder⟩ :=
        deleteLinks_at hat (Or.inl ⟨rfl, rfl⟩) hframes
      exact ⟨h', root, t, r, hrun, htree, rfl, horder⟩
    · obtain ⟨h', root, t, hrun, htree, horder⟩ :=
        deleteLinks_at hat (Or.inr ⟨rfl, rfl⟩) hframes
      exact ⟨h', root, t, l, hrun, htree, (List.append_nil _).symm, horder⟩
  · rw [not_or] at hone
    have hlroot : ∃ z, l.root = some z := by
      cases hz : l.root with
      | none => exact absurd (root_eq_none hz) hone.1
      | some z => exact ⟨z, rfl⟩
    obtain ⟨z, hz⟩ := hlroot
    have hr : r.root ≠ none := fun hnone => hone.2 (root_eq_none hnone)
    have hlong : l.inorder.length ≤ fuel := by
      simp only [inorder, List.length_append, List.length_cons] at hlen
      omega
    obtain ⟨cs, yl, y, rfl, hcs, hmost⟩ := rightMost_spec hl hz hlong
    have hpred : pRtlSubtreePredecessor h fuel x = some (some y) := by
      rw [pRtlSubtreePredecessor, hleft, hz]
      dsimp only
      rw [hmost]
      rfl
    have hswapped := SwapSplayLinks_at hat hcs
    have hplace : (SwapSplayLinks h y x).At (⟨false, y, r⟩ :: ctx) (plug cs (node yl x leaf)) :=
      At.cons_iff.mpr hswapped
    have hdeep := At.append_iff.mpr hplace
    obtain ⟨before, hbefore⟩ := inorder_right hcs
    have hframes : (cs ++ ⟨false, y, r⟩ :: ctx).length ≤ fuel := by
      have hframes := length_plug cs (node yl y leaf)
      simp only [inorder, List.length_append, List.length_cons] at hlen hframes ⊢
      omega
    obtain ⟨h', root, t, hrun, htree, horder⟩ :=
      deleteLinks_at hdeep (Or.inr ⟨rfl, rfl⟩) hframes
    refine ⟨h', root, t, node (plug cs yl) y r, ?_, htree, ?_, ?_⟩
    · have hchildren : h.child false x ≠ none ∧ h.child true x ≠ none := by
        rw [hleft, hright, hz]
        exact ⟨by simp, hr⟩
      rw [if_pos hchildren, hpred]
      exact hrun
    · simp [inorder, hbefore]
    · rw [horder, plug_append]
      rfl

/-- For every node of a tree `pRtlSplay` ends with it as the root, and `pRtlDelete` with the
root of a tree of the other nodes; both keep the links in agreement and the sequence. -/
theorem splay_and_delete {root : Option α} {t : BinTree α} (htree : h.IsTree root t)
    (hmem : x ∈ t.inorder) {fuel : Nat} (hfuel : t.inorder.length ≤ fuel) :
    (∃ h' t', pRtlSplay fuel h x = some (h', x) ∧ h'.IsTree (some x) t' ∧
      t'.inorder = t.inorder) ∧
    ∃ h' root' t', pRtlDelete fuel h x = some (h', root') ∧ h'.IsTree root' t' ∧
      t'.inorder = t.inorder.erase x := by
  refine ⟨pRtlSplay_spec htree hmem hfuel, ?_⟩
  obtain ⟨ctx, l, r, hplug⟩ := exists_plug hmem []
  change plug ctx (node l x r) = t at hplug
  have hat : h.At ctx (node l x r) := by
    rw [At.plug_iff, hplug]
    exact htree.at_root
  rw [← hplug] at hfuel
  obtain ⟨h', root', t', u, hrun, htree', hu, horder⟩ := pRtlDelete_at hat hfuel
  refine ⟨h', root', t', hrun, htree', ?_⟩
  obtain ⟨before, after, hinorder, -⟩ := inorder_plug ctx
  have hx : x ∉ before ++ l.inorder := by
    have hnodup := htree.at_root.nodup
    rw [← hplug, hinorder] at hnodup
    simp only [inorder, nodes, List.flatMap_nil, List.append_nil, List.nodup_append,
      List.mem_append, List.mem_cons] at hnodup
    intro hin
    rcases List.mem_append.mp hin with hin | hin
    · exact hnodup.1.2.2 x hin x (Or.inr (Or.inl rfl)) rfl
    · exact hnodup.1.2.1.2.2 x hin x (Or.inl rfl) rfl
  rw [horder, ← hplug, hinorder, hinorder, hu]
  have hsplit : before ++ (node l x r).inorder ++ after =
      (before ++ l.inorder) ++ x :: (r.inorder ++ after) := by simp [inorder]
  rw [hsplit, List.erase_append_right _ hx, List.erase_cons_head]
  simp

/-- Three nodes, the first the root. -/
def threeLinks : Links (Fin 3) where
  parent _ := 0
  child d x := if x = 0 then (if d then some 2 else some 1) else none

theorem splay_and_delete_three :
    (∃ h' t', pRtlSplay 3 threeLinks 0 = some (h', 0) ∧ h'.IsTree (some 0) t' ∧
      t'.inorder = [1, 0, 2]) ∧
    ∃ h' root' t', pRtlDelete 3 threeLinks 0 = some (h', root') ∧ h'.IsTree root' t' ∧
      t'.inorder = [1, 2] := by
  have htree : threeLinks.IsTree (some 0) (node (node leaf 1 leaf) 0 (node leaf 2 leaf)) := by
    refine ⟨⟨?_, ?_, by decide⟩, rfl⟩
    · refine ⟨⟨rfl, ?_, ⟨rfl, ?_, trivial⟩, rfl, ?_, trivial⟩, rfl, ?_, ⟨rfl, ?_, trivial⟩, rfl,
        ?_, trivial⟩
      all_goals
        intro z hz
        cases hz
      all_goals rfl
    · intro z hz
      cases hz
      rfl
  exact splay_and_delete htree (by decide) (by decide)

end SdkTools.MemoryCache
