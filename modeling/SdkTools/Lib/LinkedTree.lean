import Mathlib.Data.List.Nodup
import Mathlib.Logic.Function.Basic

/-!
# Binary trees in a heap of linked nodes

A heap gives each node its parent and its children; the root is its own parent. A tree is
in the heap when these links agree with it. A position in a tree is the subtree there and
the frames above it, the nearest first.
-/

namespace SdkTools.Lib

set_option autoImplicit false

variable {α : Type}

inductive BinTree (α : Type) where
  | leaf
  | node (left : BinTree α) (x : α) (right : BinTree α)

/-- Parents, and children on the sides: `false` is the left one. -/
structure Links (α : Type) where
  parent : α → α
  child : Bool → α → Option α

namespace BinTree

def root : BinTree α → Option α
  | leaf => none
  | node _ x _ => some x

def inorder : BinTree α → List α
  | leaf => []
  | node l x r => l.inorder ++ x :: r.inorder

/-- The node `x` with `t` on the side `d` and `u` on the other one. -/
def join (d : Bool) (t : BinTree α) (x : α) (u : BinTree α) : BinTree α :=
  if d then node u x t else node t x u

@[simp] theorem root_join (d : Bool) (t : BinTree α) (x : α) (u : BinTree α) :
    (join d t x u).root = some x := by cases d <;> rfl

theorem join_not (d : Bool) (t : BinTree α) (x : α) (u : BinTree α) :
    join (!d) t x u = join d u x t := by
  cases d <;> rfl

theorem inorder_join (d : Bool) (t : BinTree α) (x : α) (u : BinTree α) :
    (join d t x u).inorder =
      if d then u.inorder ++ x :: t.inorder else t.inorder ++ x :: u.inorder := by
  cases d <;> rfl

theorem mem_join {d : Bool} {t u : BinTree α} {x y : α} :
    y ∈ (join d t x u).inorder ↔ y ∈ t.inorder ∨ y = x ∨ y ∈ u.inorder := by
  cases d
  · simp [join, inorder]
  · simp only [join, inorder, if_true, List.mem_append, List.mem_cons]
    tauto

/-- Every node has a subtree on a side and one on the other. -/
theorem exists_join (d : Bool) (l : BinTree α) (x : α) (r : BinTree α) :
    ∃ u v, node l x r = join d u x v := by
  cases d with
  | false => exact ⟨l, r, rfl⟩
  | true => exact ⟨r, l, rfl⟩

theorem join_eq_node (d : Bool) (t : BinTree α) (x : α) (u : BinTree α) :
    ∃ l r, join d t x u = node l x r := by
  cases d with
  | false => exact ⟨t, u, rfl⟩
  | true => exact ⟨u, t, rfl⟩

theorem perm_join (d : Bool) (t : BinTree α) (x : α) (u : BinTree α) :
    (join d t x u).inorder.Perm (x :: (t.inorder ++ u.inorder)) := by
  rw [inorder_join]
  cases d with
  | false => exact List.perm_middle
  | true => exact List.perm_middle.trans (List.perm_append_comm.cons x)

theorem root_mem {t : BinTree α} {x : α} (h : t.root = some x) : x ∈ t.inorder := by
  cases t with
  | leaf => cases h
  | node l y r =>
    cases h
    simp [inorder]

theorem root_eq_none {t : BinTree α} (h : t.root = none) : t = leaf := by
  cases t with
  | leaf => rfl
  | node l x r => cases h

end BinTree

open BinTree

namespace Links

/-- The node at the pointer, if any, has this parent. -/
def ParentIs (h : Links α) (q : Option α) (p : α) : Prop := ∀ y ∈ q, h.parent y = p

/-- The links inside the tree agree with it. -/
def Linked (h : Links α) : BinTree α → Prop
  | leaf => True
  | node l x r => (h.child false x = l.root ∧ h.ParentIs l.root x ∧ Linked h l) ∧
      h.child true x = r.root ∧ h.ParentIs r.root x ∧ Linked h r

theorem linked_join {h : Links α} {d : Bool} {t u : BinTree α} {x : α} :
    h.Linked (join d t x u) ↔ (h.child d x = t.root ∧ h.ParentIs t.root x ∧ h.Linked t) ∧
      h.child (!d) x = u.root ∧ h.ParentIs u.root x ∧ h.Linked u := by
  cases d with
  | false => exact Iff.rfl
  | true => exact and_comm

/-- The heaps agree on the children outside `K` and on the parents outside `M`. -/
structure Agree (K M : List α) (h h' : Links α) : Prop where
  child : ∀ x, x ∉ K → ∀ d, h'.child d x = h.child d x
  parent : ∀ x, x ∉ M → h'.parent x = h.parent x

theorem Agree.trans {K M K' M' : List α} {h h' h'' : Links α} (h₁ : Agree K M h h')
    (h₂ : Agree K' M' h' h'') : Agree (K ++ K') (M ++ M') h h'' where
  child x hx d := by
    rw [List.mem_append, not_or] at hx
    rw [h₂.child x hx.2, h₁.child x hx.1]
  parent x hx := by
    rw [List.mem_append, not_or] at hx
    rw [h₂.parent x hx.2, h₁.parent x hx.1]

theorem Agree.mono {K M K' M' : List α} {h k : Links α} (hagree : Agree K M h k) (hK : K ⊆ K')
    (hM : M ⊆ M') : Agree K' M' h k where
  child x hx := hagree.child x fun hmem => hx (hK hmem)
  parent x hx := hagree.parent x fun hmem => hx (hM hmem)

theorem ParentIs.frame {K M : List α} {h h' : Links α} (hagree : Agree K M h h') {q : Option α}
    {p : α} (hq : h.ParentIs q p) (hM : ∀ y ∈ q, y ∉ M) : h'.ParentIs q p := by
  intro y hy
  rw [hagree.parent y (hM y hy), hq y hy]

/-- A tree is left alone when its nodes are; its root may get another parent. -/
theorem Linked.frame {K M : List α} {h h' : Links α} (hagree : Agree K M h h') {t : BinTree α}
    (ht : h.Linked t) (hnodup : t.inorder.Nodup) (hK : ∀ x ∈ t.inorder, x ∉ K)
    (hM : ∀ x ∈ t.inorder, t.root ≠ some x → x ∉ M) : h'.Linked t := by
  induction t with
  | leaf => trivial
  | node l x r ihl ihr =>
    obtain ⟨⟨hcl, hpl, hl⟩, hcr, hpr, hr⟩ := ht
    simp only [inorder, List.mem_append, List.mem_cons] at hK hM
    obtain ⟨hndl, hndr, hdisj⟩ := List.nodup_append.mp hnodup
    obtain ⟨hxr, hndr⟩ := List.nodup_cons.mp hndr
    have hMl : ∀ y ∈ l.inorder, y ∉ M := by
      intro y hy
      apply hM y (Or.inl hy)
      intro heq
      cases heq
      exact hdisj x hy x List.mem_cons_self rfl
    have hMr : ∀ y ∈ r.inorder, y ∉ M := by
      intro y hy
      apply hM y (Or.inr (Or.inr hy))
      intro heq
      cases heq
      exact hxr hy
    have hx := hK x (Or.inr (Or.inl rfl))
    refine ⟨⟨?_, hpl.frame hagree fun y hy => hMl y (root_mem hy),
      ihl hl hndl (fun y hy => hK y (Or.inl hy)) fun y hy _ => hMl y hy⟩, ?_,
      hpr.frame hagree fun y hy => hMr y (root_mem hy),
      ihr hr hndr (fun y hy => hK y (Or.inr (Or.inr hy))) fun y hy _ => hMr y hy⟩
    · rw [hagree.child x hx, hcl]
    · rw [hagree.child x hx, hcr]

end Links

/-! ### Positions -/

/-- The hole is on the side `d` of the node `x`; the other subtree is `sibling`. -/
structure Frame (α : Type) where
  d : Bool
  x : α
  sibling : BinTree α

abbrev Context (α : Type) := List (Frame α)

namespace Context

def nodes (ctx : Context α) : List α := ctx.flatMap fun f => f.x :: f.sibling.inorder

def plug : Context α → BinTree α → BinTree α
  | [], t => t
  | f :: ctx, t => plug ctx (join f.d t f.x f.sibling)

@[simp] theorem nodes_cons (f : Frame α) (ctx : Context α) :
    nodes (f :: ctx) = f.x :: (f.sibling.inorder ++ nodes ctx) := by
  simp [nodes]

theorem perm_cons (f : Frame α) (ctx : Context α) (t : BinTree α) :
    (t.inorder ++ nodes (f :: ctx)).Perm
      ((join f.d t f.x f.sibling).inorder ++ nodes ctx) := by
  rw [nodes_cons, inorder_join]
  cases f.d with
  | false => simp
  | true =>
    rw [if_pos rfl, List.append_assoc, List.cons_append, ← List.cons_append]
    exact (List.perm_append_comm_assoc _ _ _).trans List.perm_middle.symm

theorem plug_append (cs ctx : Context α) (t : BinTree α) :
    plug (cs ++ ctx) t = plug ctx (plug cs t) := by
  induction cs generalizing t with
  | nil => rfl
  | cons f cs ih => exact ih _

theorem root_plug_congr {t u : BinTree α} (h : t.root = u.root) (ctx : Context α) :
    (plug ctx t).root = (plug ctx u).root := by
  induction ctx generalizing t u with
  | nil => exact h
  | cons f ctx ih => exact ih (by rw [root_join, root_join])

theorem root_plug_mem {ctx : Context α} {t : BinTree α} {x : α} (h : (plug ctx t).root = some x) :
    t.root = some x ∨ x ∈ nodes ctx := by
  induction ctx generalizing t with
  | nil => exact Or.inl h
  | cons f ctx ih =>
    rw [nodes_cons]
    rcases ih h with hroot | hmem
    · rw [root_join] at hroot
      cases hroot
      exact Or.inr List.mem_cons_self
    · exact Or.inr (List.mem_cons_of_mem _ (List.mem_append_right _ hmem))

/-- The in-order sequence around a subtree. -/
theorem inorder_plug (ctx : Context α) :
    ∃ before after, (∀ t, (plug ctx t).inorder = before ++ t.inorder ++ after) ∧
      (before ++ after).Perm (nodes ctx) := by
  induction ctx with
  | nil => exact ⟨[], [], fun t => by simp [plug], List.Perm.refl _⟩
  | cons f ctx ih =>
    obtain ⟨before, after, hplug, hperm⟩ := ih
    obtain ⟨d, x, s⟩ := f
    have hnodes : (x :: s.inorder ++ (before ++ after)).Perm (nodes (⟨d, x, s⟩ :: ctx)) := by
      rw [nodes_cons, List.cons_append]
      exact (hperm.append_left _).cons x
    cases d with
    | false =>
      refine ⟨before, x :: s.inorder ++ after, fun t => ?_, ?_⟩
      · simp [plug, hplug, inorder_join]
      · exact (List.perm_append_comm_assoc _ _ _).trans hnodes
    | true =>
      refine ⟨before ++ (s.inorder ++ [x]), after, fun t => ?_, ?_⟩
      · simp [plug, hplug, inorder_join]
      · rw [List.append_assoc]
        have hfirst := (List.perm_append_singleton x s.inorder).append_right (before ++ after)
        exact (List.perm_append_comm_assoc _ _ _).trans (hfirst.trans hnodes)

/-- Trees with the same sequence at the same position. -/
theorem inorder_plug_congr {t u : BinTree α} (h : t.inorder = u.inorder) (ctx : Context α) :
    (plug ctx t).inorder = (plug ctx u).inorder := by
  obtain ⟨before, after, hplug, -⟩ := inorder_plug ctx
  rw [hplug, hplug, h]

theorem perm_plug (ctx : Context α) (t : BinTree α) :
    (plug ctx t).inorder.Perm (t.inorder ++ nodes ctx) := by
  obtain ⟨before, after, hplug, hperm⟩ := inorder_plug ctx
  rw [hplug, List.append_assoc]
  exact (List.perm_append_comm_assoc _ _ _).trans (hperm.append_left _)

theorem length_le_nodes (ctx : Context α) : ctx.length ≤ (nodes ctx).length := by
  induction ctx with
  | nil => exact Nat.le_refl _
  | cons f ctx ih =>
    rw [nodes_cons]
    simp only [List.length_cons, List.length_append]
    omega

theorem length_plug (ctx : Context α) (t : BinTree α) :
    t.inorder.length + ctx.length ≤ (plug ctx t).inorder.length := by
  obtain ⟨before, after, hplug, hperm⟩ := inorder_plug ctx
  have hlen := hperm.length_eq
  have hnodes := length_le_nodes ctx
  rw [hplug]
  simp only [List.length_append] at hlen ⊢
  omega

/-- Every node of a tree is at some position. -/
theorem exists_plug {x : α} {t : BinTree α} (hx : x ∈ t.inorder) (ctx : Context α) :
    ∃ ctx' l r, plug ctx' (node l x r) = plug ctx t := by
  induction t generalizing ctx with
  | leaf => cases hx
  | node l y r ihl ihr =>
    simp only [inorder, List.mem_append, List.mem_cons] at hx
    rcases hx with hx | rfl | hx
    · exact ihl hx (⟨false, y, r⟩ :: ctx)
    · exact ⟨ctx, l, r, rfl⟩
    · exact ihr hx (⟨true, y, l⟩ :: ctx)

end Context

open Context

namespace Links

/-- The links around a hole with this pointer agree with the frames. -/
def LinkedCtx (h : Links α) : Context α → Option α → Prop
  | [], q => ∀ y ∈ q, h.parent y = y
  | f :: ctx, q => (h.child f.d f.x = q ∧ h.ParentIs q f.x) ∧
      (h.child (!f.d) f.x = f.sibling.root ∧ h.ParentIs f.sibling.root f.x ∧
        h.Linked f.sibling) ∧ LinkedCtx h ctx (some f.x)

/-- A tree at a position of a whole tree without repeated nodes. -/
structure At (h : Links α) (ctx : Context α) (t : BinTree α) : Prop where
  tree : h.Linked t
  around : h.LinkedCtx ctx t.root
  nodup : (t.inorder ++ nodes ctx).Nodup

/-- The pointer is to the root of a tree whose links agree. -/
structure IsTree (h : Links α) (root : Option α) (t : BinTree α) : Prop where
  at_root : h.At [] t
  root_eq : t.root = root

theorem At.cons_iff {h : Links α} {f : Frame α} {ctx : Context α} {t : BinTree α} :
    h.At (f :: ctx) t ↔ h.At ctx (join f.d t f.x f.sibling) := by
  have hperm := perm_cons f ctx t
  constructor
  · rintro ⟨htree, ⟨hhole, hsibling, haround⟩, hnodup⟩
    refine ⟨linked_join.mpr ⟨⟨hhole.1, hhole.2, htree⟩, hsibling⟩, ?_, hperm.nodup_iff.mp hnodup⟩
    rw [root_join]
    exact haround
  · rintro ⟨htree, haround, hnodup⟩
    obtain ⟨⟨hchild, hparent, htree⟩, hsibling⟩ := linked_join.mp htree
    rw [root_join] at haround
    exact ⟨htree, ⟨⟨hchild, hparent⟩, hsibling, haround⟩, hperm.nodup_iff.mpr hnodup⟩

theorem At.plug_iff {h : Links α} {ctx : Context α} {t : BinTree α} :
    h.At ctx t ↔ h.At [] (plug ctx t) := by
  induction ctx generalizing t with
  | nil => exact Iff.rfl
  | cons f ctx ih => exact At.cons_iff.trans ih

theorem Linked.of_plug {h : Links α} {ctx : Context α} {t : BinTree α}
    (hl : h.Linked (plug ctx t)) : h.Linked t := by
  induction ctx generalizing t with
  | nil => exact hl
  | cons f ctx ih => exact (linked_join.mp (ih hl)).1.2.2

/-- Another subtree with the same root takes the place of a subtree. -/
theorem Linked.plug_frame {K M : List α} {h h' : Links α} (hagree : Agree K M h h')
    {ctx : Context α} {t u : BinTree α} (hl : h.Linked (plug ctx t))
    (hnodup : (t.inorder ++ nodes ctx).Nodup) (hK : ∀ z ∈ nodes ctx, z ∉ K)
    (hM : ∀ z, t.root = some z ∨ z ∈ nodes ctx → (plug ctx t).root ≠ some z → z ∉ M)
    (hroot : u.root = t.root) (hu : h'.Linked u) : h'.Linked (plug ctx u) := by
  induction ctx generalizing t u with
  | nil => exact hu
  | cons f ctx ih =>
    have hnodup' := (perm_cons f ctx t).nodup_iff.mp hnodup
    rw [nodes_cons] at hnodup hK hM
    obtain ⟨hKx, hK⟩ := List.forall_mem_cons.mp hK
    obtain ⟨-, hndc, hdisj⟩ := List.nodup_append.mp hnodup
    obtain ⟨hx, hndc⟩ := List.nodup_cons.mp hndc
    obtain ⟨hnds, -, hapart⟩ := List.nodup_append.mp hndc
    change h.Linked (plug ctx (join f.d t f.x f.sibling)) at hl
    obtain ⟨⟨hchild, hparent, -⟩, hsib, hsibParent, hsibTree⟩ := linked_join.mp hl.of_plug
    have htop (z : α) (hz : z ≠ f.x ∧ z ∉ nodes ctx) : (plug (f :: ctx) t).root ≠ some z := by
      intro htop
      change (plug ctx (join f.d t f.x f.sibling)).root = some z at htop
      rcases root_plug_mem htop with hroot | hmem
      · rw [root_join] at hroot
        exact hz.1 (Option.some.inj hroot).symm
      · exact hz.2 hmem
    have hsibM (z : α) (hz : z ∈ f.sibling.inorder) : z ∉ M := by
      apply hM z (Or.inr (List.mem_cons_of_mem _ (List.mem_append_left _ hz)))
      apply htop
      refine ⟨?_, fun hmem => hapart z hz z hmem rfl⟩
      intro heq
      exact hx (List.mem_append_left _ (heq ▸ hz))
    refine ih hl hnodup' (fun z hz => hK z (List.mem_append_right _ hz)) ?_
      (by rw [root_join, root_join]) (linked_join.mpr ⟨⟨?_, ?_, hu⟩, ?_, ?_, ?_⟩)
    · intro z hz
      apply hM z
      rcases hz with hroot | hmem
      · rw [root_join] at hroot
        cases hroot
        exact Or.inr List.mem_cons_self
      · exact Or.inr (List.mem_cons_of_mem _ (List.mem_append_right _ hmem))
    · rw [hagree.child _ hKx, hchild, hroot]
    · rw [hroot]
      apply hparent.frame hagree
      intro z hz
      have hmem := root_mem hz
      apply hM z (Or.inl hz)
      apply htop
      refine ⟨fun heq => hdisj z hmem f.x List.mem_cons_self heq, fun hin => ?_⟩
      exact hdisj z hmem z (List.mem_cons_of_mem _ (List.mem_append_right _ hin)) rfl
    · rw [hagree.child _ hKx, hsib]
    · exact hsibParent.frame hagree fun z hz => hsibM z (root_mem hz)
    · exact hsibTree.frame hagree hnds (fun z hz => hK z (List.mem_append_left _ hz))
        fun z hz _ => hsibM z hz

theorem At.append_iff {h : Links α} {cs ctx : Context α} {t : BinTree α} :
    h.At (cs ++ ctx) t ↔ h.At ctx (plug cs t) := by
  induction cs generalizing t with
  | nil => exact Iff.rfl
  | cons f cs ih => exact At.cons_iff.trans ih

/-- The frames are left alone when their nodes are, but for the hole of the nearest one. -/
theorem LinkedCtx.frame {K M : List α} {h h' : Links α} (hagree : Agree K M h h')
    {ctx : Context α} {q : Option α} (hctx : h.LinkedCtx ctx q) (hnodup : (nodes ctx).Nodup)
    (hK : ∀ x ∈ nodes ctx, x ∉ K) (hM : ∀ x ∈ nodes ctx, x ∉ M) (hq : ∀ y ∈ q, y ∉ M) :
    h'.LinkedCtx ctx q := by
  induction ctx generalizing q with
  | nil =>
    intro y hy
    rw [hagree.parent y (hq y hy)]
    exact hctx y hy
  | cons f ctx ih =>
    obtain ⟨⟨hchild, hparent⟩, ⟨hsib, hsibParent, hsibTree⟩, hrest⟩ := hctx
    rw [nodes_cons] at hnodup hK hM
    obtain ⟨hx, hnodup⟩ := List.nodup_cons.mp hnodup
    obtain ⟨hndS, hndC, -⟩ := List.nodup_append.mp hnodup
    obtain ⟨hKx, hK⟩ := List.forall_mem_cons.mp hK
    obtain ⟨hMx, hM⟩ := List.forall_mem_cons.mp hM
    have hMs : ∀ y ∈ f.sibling.inorder, y ∉ M := fun y hy => hM y (List.mem_append_left _ hy)
    refine ⟨⟨?_, hparent.frame hagree hq⟩, ⟨?_, hsibParent.frame hagree fun y hy =>
      hMs y (root_mem hy), hsibTree.frame hagree hndS (fun y hy => hK y (List.mem_append_left _ hy))
      fun y hy _ => hMs y hy⟩, ih hrest hndC (fun y hy => hK y (List.mem_append_right _ hy))
      (fun y hy => hM y (List.mem_append_right _ hy)) ?_⟩
    · rw [hagree.child _ hKx, hchild]
    · rw [hagree.child _ hKx, hsib]
    · intro y hy
      cases hy
      exact hMx

end Links

end SdkTools.Lib
