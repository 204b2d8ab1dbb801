import SdkTools.MemoryCache.CacheLookup

/-!
# Insertion

The operations on a tree keep to the links of its nodes. `InsertNode` puts a node at the place of
its offset.
-/

namespace SdkTools.MemoryCache

open Lib Lib.BinTree Lib.Context Lib.Links

set_option autoImplicit false

section

variable {α : Type} {S : α → Prop} {h k : Links α} {x y p : α} {d e : Bool}

/-! ### Links of other nodes -/

/-- The links of these nodes stay among them. -/
structure Closed (S : α → Prop) (h : Links α) : Prop where
  parent : ∀ x, S x → S (h.parent x)
  child : ∀ x, S x → ∀ d, ∀ y ∈ h.child d x, S y

/-- A change of the links of these nodes that keeps them among the nodes. -/
structure Within (S : α → Prop) (h k : Links α) : Prop where
  closed : Closed S k
  parent : ∀ x, ¬ S x → k.parent x = h.parent x
  child : ∀ x, ¬ S x → ∀ d, k.child d x = h.child d x

theorem Within.refl (hc : Closed S h) : Within S h h :=
  ⟨hc, fun _ _ => rfl, fun _ _ _ => rfl⟩

theorem Within.trans {m : Links α} (hw : Within S h k) (hw' : Within S k m) : Within S h m where
  closed := hw'.closed
  parent x hx := (hw'.parent x hx).trans (hw.parent x hx)
  child x hx d := (hw'.child x hx d).trans (hw.child x hx d)

/-- The links of a tree's nodes, but for the parent of the root. -/
theorem linked_closed {t : BinTree α} (ht : h.Linked t) : ∀ x ∈ t.inorder,
    (t.root = some x ∨ h.parent x ∈ t.inorder) ∧ ∀ d, ∀ y ∈ h.child d x, y ∈ t.inorder := by
  induction t with
  | leaf =>
    intro x hx
    cases hx
  | node l z r ihl ihr =>
    obtain ⟨⟨hcl, hpl, hl⟩, hcr, hpr, hr⟩ := ht
    have hz : z ∈ (node l z r).inorder := by simp [inorder]
    have hml (y : α) (hy : y ∈ l.inorder) : y ∈ (node l z r).inorder := by simp [inorder, hy]
    have hmr (y : α) (hy : y ∈ r.inorder) : y ∈ (node l z r).inorder := by simp [inorder, hy]
    intro x hx
    simp only [inorder, List.mem_append, List.mem_cons] at hx
    rcases hx with hx | rfl | hx
    · obtain ⟨hparent, hchild⟩ := ihl hl x hx
      refine ⟨Or.inr ?_, fun d y hy => hml y (hchild d y hy)⟩
      rcases hparent with hroot | hparent
      · rw [hpl x hroot]
        exact hz
      · exact hml _ hparent
    · refine ⟨Or.inl rfl, ?_⟩
      intro d y hy
      cases d with
      | false => exact hml y (root_mem (hcl ▸ hy))
      | true => exact hmr y (root_mem (hcr ▸ hy))
    · obtain ⟨hparent, hchild⟩ := ihr hr x hx
      refine ⟨Or.inr ?_, fun d y hy => hmr y (hchild d y hy)⟩
      rcases hparent with hroot | hparent
      · rw [hpr x hroot]
        exact hz
      · exact hmr _ hparent

theorem isTree_closed {root : Option α} {t : BinTree α} (ht : h.IsTree root t) :
    Closed (· ∈ t.inorder) h where
  parent x hx := by
    rcases (linked_closed ht.at_root.tree x hx).1 with hroot | hparent
    · rw [ht.at_root.around x hroot]
      exact hx
    · exact hparent
  child x hx := (linked_closed ht.at_root.tree x hx).2

variable [DecidableEq α]

theorem Within.setParent (hw : Within S h k) (hx : S x) (hp : S p) :
    Within S h (setParent k x p) := by
  refine hw.trans ⟨⟨?_, hw.closed.child⟩, ?_, fun _ _ _ => rfl⟩
  · intro y hy
    rw [parent_setParent]
    split
    · exact hp
    · exact hw.closed.parent y hy
  · intro y hy
    rw [parent_setParent, if_neg]
    rintro rfl
    exact hy hx

theorem Within.setChild (hw : Within S h k) {q : Option α} (hx : S x) (hq : ∀ y ∈ q, S y) :
    Within S h (setChild k d x q) := by
  refine hw.trans ⟨⟨hw.closed.parent, ?_⟩, fun _ _ => rfl, ?_⟩
  · intro y hy e z hz
    rw [child_setChild] at hz
    split at hz
    · exact hq z hz
    · exact hw.closed.child y hy e z hz
  · intro y hy e
    rw [child_setChild, if_neg]
    rintro ⟨-, rfl⟩
    exact hy hx

theorem Within.connectTo (hw : Within S h k) (hx : S x) (hy : S y) :
    Within S h (connect k d x (some y)) := by
  refine (hw.setChild hx ?_).setParent hy hx
  intro z hz
  cases hz
  exact hy

theorem Within.connectChild (hw : Within S h k) (hx : S x) (hy : S y) :
    Within S h (connect k d x (k.child e y)) := by
  cases hz : k.child e y with
  | some z => exact hw.connectTo hx (hw.closed.child y hy e z hz)
  | none =>
    apply hw.setChild hx
    intro z hz
    cases hz

theorem Within.connectGreat {G L : α} (hw : Within S h k) (hG : S G) (hL : S L) :
    Within S h (connectGreat k G L) := by
  unfold MemoryCache.connectGreat
  split
  · exact hw.setParent hL hL
  · have hup := hw.setParent hL (hw.closed.parent G hG)
    refine hup.setChild (hup.closed.parent G hG) ?_
    intro z hz
    cases hz
    exact hL

theorem splayStep_within {L : α} (hc : Closed S h) (hL : S L) : Within S h (splayStep h L) := by
  have hw := Within.refl hc
  have hP := hc.parent L hL
  have hG := hc.parent (h.parent L) hP
  unfold splayStep
  dsimp only
  split
  · split
    · exact ((hw.connectChild hP hL).connectTo hL hP).setParent hL hL
    · split
      · exact ((((hw.connectChild hP hL).connectChild hG hP).connectGreat hG hL).connectTo
          hL hP).connectTo hP hG
      · exact ((((hw.connectChild hG hL).connectChild hP hL).connectGreat hG hL).connectTo
          hL hG).connectTo hL hP
  · split
    · exact ((hw.connectChild hP hL).connectTo hL hP).setParent hL hL
    · split
      · exact ((((hw.connectChild hG hP).connectChild hP hL).connectGreat hG hL).connectTo
          hL hP).connectTo hP hG
      · exact ((((hw.connectChild hP hL).connectChild hG hL).connectGreat hG hL).connectTo
          hL hP).connectTo hL hG

theorem pRtlSplay_within {fuel : Nat} {L root : α} (hc : Closed S h) (hL : S L)
    (hrun : pRtlSplay fuel h L = some (k, root)) : Within S h k := by
  induction fuel generalizing h with
  | zero => cases hrun
  | succ fuel ih =>
    rw [pRtlSplay] at hrun
    split at hrun
    · cases hrun
      exact Within.refl hc
    · have hstep := splayStep_within hc hL
      exact hstep.trans (ih hstep.closed hrun)

/-! ### A new leaf -/

/-- A node without children is put into a hole. -/
theorem connect_leaf_at {f : Frame α} {ctx : Context α} {x : α} (hat : h.At (f :: ctx) leaf)
    (hx : x ∉ nodes (f :: ctx)) (hleft : h.child false x = none) (hright : h.child true x = none) :
    (connect h f.d f.x (some x)).At (f :: ctx) (node leaf x leaf) := by
  obtain ⟨-, haround, hnodup⟩ := hat
  have hne : x ≠ f.x := by
    rintro rfl
    exact hx (by simp)
  refine ⟨⟨⟨?_, ?_, trivial⟩, ?_, ?_, trivial⟩, ?_, ?_⟩
  · rw [child_connect, if_neg (fun hboth => hne hboth.2), hleft]
    rfl
  · intro y hy
    cases hy
  · rw [child_connect, if_neg (fun hboth => hne hboth.2), hright]
    rfl
  · intro y hy
    cases hy
  · apply connect_replace haround
    · simpa [inorder] using hnodup
    · intro y hy
      cases hy
      exact hx
  · simp only [inorder, List.nil_append] at hnodup ⊢
    exact List.nodup_cons.mpr ⟨hx, hnodup⟩

end

/-! ### The place of an address -/

variable {s : State} {ids : List Nat}

/-- The place is behind the nodes that start at the address or before it. -/
theorem insertPlace_spec {t : BinTree Nat} (hlinked : s.links.Linked t)
    (hsorted : t.inorder.Pairwise fun x y => (s.entry x).Offset ≤ (s.entry y).Offset)
    (BaseAddress : Nat) {fuel root : Nat} (hroot : t.root = some root)
    (hfuel : t.inorder.length ≤ fuel) :
    ∃ f ctx before after, insertPlace s BaseAddress fuel root = some (f.x, f.d) ∧
      plug (f :: ctx) leaf = t ∧
      (∀ u, (plug (f :: ctx) u).inorder = before ++ u.inorder ++ after) ∧
      (∀ y ∈ before, (s.entry y).Offset ≤ BaseAddress) ∧
      ∀ y ∈ after, BaseAddress < (s.entry y).Offset := by
  induction t generalizing fuel root with
  | leaf => cases hroot
  | node l x r ihl ihr =>
    cases hroot
    obtain ⟨⟨hcl, -, hl⟩, hcr, -, hr⟩ := hlinked
    simp only [inorder, List.length_append, List.length_cons] at hfuel
    obtain ⟨fuel, rfl⟩ := Nat.exists_eq_succ_of_ne_zero (n := fuel) (by omega)
    obtain ⟨hsl, hsr, hacross⟩ := List.pairwise_append.mp hsorted
    obtain ⟨hxr, hsr⟩ := List.pairwise_cons.mp hsr
    rw [insertPlace]
    by_cases hlt : BaseAddress < (s.entry x).Offset
    · have hright (y : Nat) (hy : y ∈ x :: r.inorder) : BaseAddress < (s.entry y).Offset := by
        rcases List.mem_cons.mp hy with rfl | hy
        · exact hlt
        · exact Nat.lt_of_lt_of_le hlt (hxr y hy)
      simp only [hlt, not_true_eq_false, decide_false, hcl]
      cases hroot : l.root with
      | none =>
        refine ⟨⟨false, x, r⟩, [], [], x :: r.inorder, rfl, ?_, ?_, ?_, hright⟩
        · rw [root_eq_none hroot]
          rfl
        · intro u
          simp [plug, join, inorder]
        · intro y hy
          cases hy
      | some root =>
        obtain ⟨f, ctx, before, after, hrun, hplug, hinorder, hbefore, hafter⟩ :=
          ihl hl hsl hroot (by omega : l.inorder.length ≤ fuel)
        refine ⟨f, ctx ++ [⟨false, x, r⟩], before, after ++ x :: r.inorder, hrun, ?_, ?_, hbefore, ?_⟩
        · rw [← List.cons_append, plug_append, hplug]
          rfl
        · intro u
          rw [← List.cons_append, plug_append]
          simp [plug, join, inorder] at hinorder ⊢
          simp [hinorder]
        · intro y hy
          rcases List.mem_append.mp hy with hy | hy
          · exact hafter y hy
          · exact hright y hy
    · have hleft (y : Nat) (hy : y ∈ l.inorder ++ [x]) : (s.entry y).Offset ≤ BaseAddress := by
        have hle : (s.entry x).Offset ≤ BaseAddress := Nat.le_of_not_lt hlt
        rcases List.mem_append.mp hy with hy | hy
        · exact Nat.le_trans (hacross y hy x List.mem_cons_self) hle
        · rw [List.mem_singleton.mp hy]
          exact hle
      simp only [hlt, not_false_eq_true, decide_true, hcr]
      cases hroot : r.root with
      | none =>
        refine ⟨⟨true, x, l⟩, [], l.inorder ++ [x], [], rfl, ?_, ?_, hleft, ?_⟩
        · rw [root_eq_none hroot]
          rfl
        · intro u
          simp [plug, join, inorder]
        · intro y hy
          cases hy
      | some root =>
        obtain ⟨f, ctx, before, after, hrun, hplug, hinorder, hbefore, hafter⟩ :=
          ihr hr hsr hroot (by omega : r.inorder.length ≤ fuel)
        refine ⟨f, ctx ++ [⟨true, x, l⟩], l.inorder ++ x :: before, after, hrun, ?_, ?_, ?_, hafter⟩
        · rw [← List.cons_append, plug_append, hplug]
          rfl
        · intro u
          rw [← List.cons_append, plug_append]
          simp [plug, join, inorder] at hinorder ⊢
          simp [hinorder]
        · intro y hy
          rw [List.append_cons, List.mem_append] at hy
          rcases hy with hy | hy
          · exact hleft y hy
          · exact hbefore y hy

/-! ### `InsertNode` -/

/-- Nodes whose ranges do not overlap, and one more in its place. -/
theorem pairwise_insert {before after : List Nat} {x : Nat}
    (hapart : (before ++ after).Pairwise (Before s)) (hx : (s.entry x).Valid)
    (hvalid : ∀ y ∈ before ++ after, (s.entry y).Valid)
    (hfree : ∀ y ∈ before ++ after, Before s y x ∨ Before s x y)
    (hbefore : ∀ y ∈ before, (s.entry y).Offset ≤ (s.entry x).Offset)
    (hafter : ∀ y ∈ after, (s.entry x).Offset < (s.entry y).Offset) :
    (before ++ x :: after).Pairwise (Before s) := by
  obtain ⟨hapb, hapa, hacross⟩ := List.pairwise_append.mp hapart
  have hpos := hx.offset_lt
  have hleft (y : Nat) (hy : y ∈ before) : Before s y x := by
    rcases hfree y (List.mem_append_left _ hy) with h | h
    · exact h
    · have := hbefore y hy
      unfold Before at h
      omega
  have hright (y : Nat) (hy : y ∈ after) : Before s x y := by
    rcases hfree y (List.mem_append_right _ hy) with h | h
    · have := hafter y hy
      have := (hvalid y (List.mem_append_right _ hy)).offset_lt
      unfold Before at h
      omega
    · exact h
  rw [List.pairwise_append]
  refine ⟨hapb, List.pairwise_cons.mpr ⟨hright, hapa⟩, ?_⟩
  intro y hy z hz
  rcases List.mem_cons.mp hz with rfl | hz
  · exact hleft y hy
  · exact hacross y hy z hz

theorem init_agree (h : Links Nat) (x : Nat) : Agree [x] [x] h (RtlInitializeSplayLinks h x) := by
  have hagree := ((setParent_agree h x x).trans (setChild_agree _ false x none)).trans
    (setChild_agree _ true x none)
  exact hagree.mono (by simp) (by simp)

theorem parent_init (h : Links Nat) (x y : Nat) :
    (RtlInitializeSplayLinks h x).parent y = if y = x then x else h.parent y :=
  parent_setParent x

theorem child_init (h : Links Nat) (x y : Nat) (d : Bool) :
    (RtlInitializeSplayLinks h x).child d y = if y = x then none else h.child d y := by
  unfold RtlInitializeSplayLinks
  rw [child_setChild, child_setChild, child_setParent]
  by_cases hy : y = x
  · cases d <;> simp [hy]
  · simp [hy]

/-- The new node points at itself only. -/
theorem init_within {h : Links Nat} (hc : Closed (· ∈ ids) h) (x : Nat) :
    Within (· ∈ x :: ids) h (RtlInitializeSplayLinks h x) := by
  refine ⟨⟨?_, ?_⟩, ?_, ?_⟩
  · intro y hy
    rw [parent_init]
    split
    · exact List.mem_cons_self
    · rename_i hne
      exact List.mem_cons_of_mem _ (hc.parent y (List.mem_of_ne_of_mem hne hy))
  · intro y hy d z hz
    rw [child_init] at hz
    split at hz
    · cases hz
    · rename_i hne
      exact List.mem_cons_of_mem _ (hc.child y (List.mem_of_ne_of_mem hne hy) d z hz)
  · intro y hy
    rw [parent_init, if_neg]
    rintro rfl
    exact hy List.mem_cons_self
  · intro y hy d
    rw [child_init, if_neg]
    rintro rfl
    exact hy List.mem_cons_self

theorem Holds.offsets (hs : Holds s ids) :
    ids.Pairwise fun x y => (s.entry x).Offset ≤ (s.entry y).Offset := by
  apply hs.apart.imp
  intro x y hxy
  exact Nat.le_trans (Nat.le_add_right _ _) hxy

/-- A node whose range is free goes to its place in the sequence. -/
theorem InsertNode_spec (hs : Holds s ids) {Node : Nat} (hNode : Node ∉ ids)
    (hroom : ids.length < s.allocated) (hvalid : (s.entry Node).Valid)
    (hfree : ∀ x ∈ ids, Before s x Node ∨ Before s Node x) :
    ∃ h root before after,
      InsertNode s Node =
        some ((s.setCount (ulong (s.m_NodeCount + 1))).setTree h (some root)) ∧
      ids = before ++ after ∧
      Holds (s.setTree h (some root)) (before ++ Node :: after) ∧
      Within (· ∈ Node :: ids) s.links h := by
  obtain ⟨t, htree, hinorder⟩ := hs.tree
  have hNodet : Node ∉ t.inorder := by rwa [hinorder]
  have hclosed := isTree_closed htree
  have hNodup : t.inorder.Nodup := by
    rw [hinorder]
    exact hs.nodup
  have hall (x : Nat) (hx : x ∈ Node :: ids) : (s.entry x).Valid := by
    rcases List.mem_cons.mp hx with rfl | hx
    · exact hvalid
    · exact hs.valid x hx
  have hwithin : Within (· ∈ Node :: ids) s.links (RtlInitializeSplayLinks s.links Node) := by
    rw [hinorder] at hclosed
    exact init_within hclosed Node
  have hlinked : (RtlInitializeSplayLinks s.links Node).Linked t := by
    apply htree.at_root.tree.frame (init_agree s.links Node) hNodup
    · intro x hx hmem
      exact hNodet (List.mem_singleton.mp hmem ▸ hx)
    · intro x hx _ hmem
      exact hNodet (List.mem_singleton.mp hmem ▸ hx)
  have hleft : (RtlInitializeSplayLinks s.links Node).child false Node = none := by
    rw [child_init, if_pos rfl]
  have hright : (RtlInitializeSplayLinks s.links Node).child true Node = none := by
    rw [child_init, if_pos rfl]
  simp only [InsertNode, State.setCount_m_Root, State.setTree_entry, State.setTree_allocated,
    State.setCount_entry, State.setCount_allocated, State.setTree_setTree]
  cases hroot : s.m_Root with
  | none =>
    have hleaf := root_eq_none (htree.root_eq.trans hroot)
    rw [hleaf] at hinorder
    subst hinorder
    refine ⟨_, Node, [], [], rfl, rfl, ⟨⟨node leaf Node leaf, ⟨⟨?_, ?_, ?_⟩, rfl⟩, rfl⟩, ?_, ?_⟩,
      hwithin⟩
    · refine ⟨⟨hleft, ?_, trivial⟩, hright, ?_, trivial⟩
      all_goals
        intro y hy
        cases hy
    · intro y hy
      cases hy
      rw [State.setTree_links, parent_init, if_pos rfl]
    · simp [inorder, nodes]
    · exact fun x hx => hall x hx
    · exact List.pairwise_singleton _ _
  | some root =>
    have hoffsets := hs.offsets
    rw [← hinorder] at hoffsets hroom
    obtain ⟨f, ctx, before, after, hrun, hplug, horder, hbefore, hafter⟩ :=
      insertPlace_spec
        (s := (s.setCount (ulong (s.m_NodeCount + 1))).setTree
          (RtlInitializeSplayLinks s.links Node) (some root))
        hlinked hoffsets (s.entry Node).Offset (htree.root_eq.trans hroot) (Nat.le_of_lt hroom)
    have hids : ids = before ++ after := by
      rw [← hinorder, ← hplug, horder]
      simp [inorder]
    have hat : (RtlInitializeSplayLinks s.links Node).At (f :: ctx) leaf := by
      rw [At.plug_iff, hplug]
      refine ⟨hlinked, ?_, htree.at_root.nodup⟩
      intro y hy
      rw [parent_init, if_neg, htree.at_root.around y hy]
      rintro rfl
      exact hNodet (root_mem hy)
    have hperm := perm_plug (f :: ctx) leaf
    rw [hplug, hinorder] at hperm
    have hplace := connect_leaf_at hat (fun hmem => hNode (hperm.mem_iff.mpr hmem)) hleft hright
    have hfx : f.x ∈ ids := hperm.mem_iff.mpr (by simp)
    have hnew := horder (node leaf Node leaf)
    have hfuel : (plug (f :: ctx) (node leaf Node leaf)).inorder.length ≤ s.allocated := by
      rw [hnew]
      rw [hinorder, hids] at hroom
      simp only [inorder, List.length_append, List.length_cons, List.length_nil] at hroom ⊢
      omega
    obtain ⟨h, t', hsplay, htree', horder'⟩ := pRtlSplay_spec (L := f.x)
      ⟨At.plug_iff.mp hplace, rfl⟩ (by
        rw [hnew, List.append_assoc, List.mem_append, List.mem_append]
        rw [hids, List.mem_append] at hfx
        tauto) hfuel
    have hchain := hwithin.connectTo (d := f.d) (List.mem_cons_of_mem _ hfx) List.mem_cons_self
    refine ⟨h, f.x, before, after, ?_, hids, ⟨⟨t', htree', ?_⟩, ?_, ?_⟩,
      hchain.trans (pRtlSplay_within hchain.closed (List.mem_cons_of_mem _ hfx) hsplay)⟩
    · change insertPlace _ (s.entry Node).Offset s.allocated root = _ at hrun
      simp only [hrun]
      change (pRtlSplay s.allocated (connect _ f.d f.x (some Node)) f.x).map _ = _
      rw [hsplay]
      rfl
    · rw [horder', hnew]
      simp [inorder]
    · intro x hx
      apply hall x
      rw [hids, List.mem_cons, List.mem_append]
      simp only [List.mem_append, List.mem_cons] at hx
      tauto
    · have hvalids := hs.valid
      have hapart := hs.apart
      rw [hids] at hvalids hapart hfree
      exact pairwise_insert hapart hvalid hvalids hfree hbefore hafter

end SdkTools.MemoryCache
