import SdkTools.MemoryCache.CacheAdd

/-!
# Purging

The walk of `Empty` and `PurgeType` takes a tree apart. It visits every node once, after the nodes
below it, while the visits may build another tree of the nodes visited.
-/

namespace SdkTools.MemoryCache

open Lib Lib.BinTree Lib.Context Lib.Links

set_option autoImplicit false

def postorder {α : Type} : BinTree α → List α
  | leaf => []
  | node l x r => postorder l ++ postorder r ++ [x]

theorem postorder_perm {α : Type} (t : BinTree α) : (postorder t).Perm t.inorder := by
  induction t with
  | leaf => exact List.Perm.refl _
  | node l x r ihl ihr =>
    have hsides : (postorder l ++ postorder r).Perm (l.inorder ++ r.inorder) := ihl.append ihr
    exact (List.perm_append_singleton x _).trans ((hsides.cons x).trans List.perm_middle.symm)

/-! ### The walk -/

/-- What a visit needs: `P` holds of the nodes visited and the state. A visit leaves the links of
the other nodes alone, and `P` does not depend on them. -/
structure Visits (visit : State → Nat → Option State) (A : Nat → Prop)
    (P : List Nat → State → Prop) : Prop where
  visit : ∀ vs s x, P vs s → x ∉ vs → A x →
    ∃ s', visit s x = some s' ∧ P (vs ++ [x]) s' ∧ Agree (vs ++ [x]) (vs ++ [x]) s.links s'.links
  cut : ∀ vs s x d, P vs s → x ∉ vs → P vs (s.setTree (setChild s.links d x none) s.m_Root)

variable {visit : State → Nat → Option State} {A : Nat → Prop} {P : List Nat → State → Prop}
  {top : Nat}

/-- The walk takes the tree apart and goes up. -/
def Walks (visit : State → Nat → Option State) (A : Nat → Prop) (P : List Nat → State → Prop)
    (top : Nat) (t : BinTree Nat) : Prop :=
  ∀ root, t.root = some root → ∀ vs s, s.links.Linked t → t.inorder.Nodup →
    (∀ y ∈ t.inorder, y ∉ vs ∧ A y) → (top ∈ t.inorder → root = top) → P vs s →
    ∃ s', (∀ fuel, purgeWalk visit top (fuel + (2 * t.inorder.length - 1)) (some root) s =
        purgeWalk visit top fuel (if root = top then none else some (s.links.parent root)) s') ∧
      P (vs ++ postorder t) s' ∧
      Agree (vs ++ t.inorder) (vs ++ t.inorder) s.links s'.links

/-- One step down. -/
theorem purgeWalk_down {s : State} {d : Bool} {x y : Nat} (hchild : s.links.child d x = some y)
    (hfirst : d = true → s.links.child false x = none) (fuel : Nat) :
    purgeWalk visit top (fuel + 1) (some x) s =
      purgeWalk visit top fuel (some y) (s.setTree (setChild s.links d x none) s.m_Root) := by
  cases d with
  | false => rw [purgeWalk, hchild]
  | true => rw [purgeWalk, hfirst rfl, hchild]

/-- The walk takes apart the subtree on one side and comes back. -/
theorem walk_side (hv : Visits visit A P) {u : BinTree Nat} (hu : Walks visit A P top u)
    {s : State} {vs : List Nat} {x : Nat} {d : Bool} (hchild : s.links.child d x = u.root)
    (hparent : s.links.ParentIs u.root x) (hlinked : s.links.Linked u) (hnodup : u.inorder.Nodup)
    (hfresh : ∀ y ∈ u.inorder, y ∉ vs ∧ A y) (hx : x ∉ u.inorder) (hxs : x ∉ vs)
    (htop : top ∉ u.inorder) (hfirst : d = true → s.links.child false x = none) (hP : P vs s) :
    ∃ s', (∀ fuel, purgeWalk visit top (fuel + 2 * u.inorder.length) (some x) s =
        purgeWalk visit top fuel (some x) s') ∧
      s'.links.child d x = none ∧ (∀ e, e ≠ d → s'.links.child e x = s.links.child e x) ∧
      P (vs ++ postorder u) s' ∧
      Agree (x :: (vs ++ u.inorder)) (vs ++ u.inorder) s.links s'.links := by
  cases hroot : u.root with
  | none =>
    have hleaf := root_eq_none hroot
    subst hleaf
    refine ⟨s, fun _ => rfl, hchild.trans hroot, fun _ _ => rfl, ?_, fun _ _ _ => rfl,
      fun _ _ => rfl⟩
    simpa [postorder] using hP
  | some y =>
    rw [hroot] at hchild
    have hy := root_mem hroot
    have hcut := setChild_agree s.links d x none
    have hlinked₀ : (s.setTree (setChild s.links d x none) s.m_Root).links.Linked u := by
      apply hlinked.frame hcut hnodup
      · intro z hz hmem
        exact hx (List.mem_singleton.mp hmem ▸ hz)
      · intro _ _ _
        exact List.not_mem_nil
    obtain ⟨s', hrun, hP', hagree⟩ := hu y hroot vs _ hlinked₀ hnodup hfresh
      (fun hmem => absurd hmem htop) (hv.cut vs s x d hP hxs)
    have hout : x ∉ vs ++ u.inorder := by
      rw [List.mem_append]
      tauto
    refine ⟨s', ?_, ?_, ?_, hP', (hcut.trans hagree).mono ?_ ?_⟩
    · intro fuel
      have hpos := List.length_pos_of_mem hy
      have hsplit : fuel + 2 * u.inorder.length = fuel + (2 * u.inorder.length - 1) + 1 := by omega
      have hne : y ≠ top := by
        rintro rfl
        exact htop hy
      have hback : (s.setTree (setChild s.links d x none) s.m_Root).links.parent y = x :=
        hparent y hroot
      rw [hsplit, purgeWalk_down hchild hfirst, hrun, if_neg hne, hback]
    · rw [hagree.child x hout, State.setTree_links, child_setChild, if_pos ⟨rfl, rfl⟩]
    · intro e he
      rw [hagree.child x hout, State.setTree_links, child_setChild, if_neg]
      exact fun hboth => he hboth.1
    · simp
    · simp

theorem walk_tree (hv : Visits visit A P) (t : BinTree Nat) : Walks visit A P top t := by
  induction t with
  | leaf =>
    intro root hroot
    cases hroot
  | node l x r ihl ihr =>
    intro root hroot vs s hlinked hnodup hfresh htop hP
    cases hroot
    obtain ⟨⟨hcl, hpl, hl⟩, hcr, hpr, hr⟩ := hlinked
    simp only [inorder, List.mem_append, List.mem_cons] at hfresh htop
    obtain ⟨hndl, hndr, hdisj⟩ := List.nodup_append.mp hnodup
    obtain ⟨hxr, hndr⟩ := List.nodup_cons.mp hndr
    have hxl : x ∉ l.inorder := fun hmem => hdisj x hmem x List.mem_cons_self rfl
    have hlr (y : Nat) (hy : y ∈ l.inorder) : y ∉ r.inorder :=
      fun hmem => hdisj y hy y (List.mem_cons_of_mem _ hmem) rfl
    have hx := hfresh x (Or.inr (Or.inl rfl))
    have htopl : top ∉ l.inorder := by
      intro hmem
      exact hxl (htop (Or.inl hmem) ▸ hmem)
    have htopr : top ∉ r.inorder := by
      intro hmem
      exact hxr (htop (Or.inr (Or.inr hmem)) ▸ hmem)
    obtain ⟨s₁, hrun₁, hnone₁, hother₁, hP₁, hagree₁⟩ := walk_side hv ihl (d := false) hcl hpl hl
      hndl (fun y hy => hfresh y (Or.inl hy)) hxl hx.1 htopl (fun h => absurd h (by decide)) hP
    have hr₁ (y : Nat) (hy : y ∈ r.inorder) : y ∉ x :: (vs ++ l.inorder) := by
      have hyv := (hfresh y (Or.inr (Or.inr hy))).1
      simp only [List.mem_cons, List.mem_append, not_or]
      refine ⟨?_, hyv, fun hmem => hlr y hmem hy⟩
      rintro rfl
      exact hxr hy
    have hlinked₁ : s₁.links.Linked r := by
      apply hr.frame hagree₁ hndr hr₁
      intro y hy _ hmem
      exact hr₁ y hy (List.mem_cons_of_mem _ hmem)
    have hparent₁ : s₁.links.ParentIs r.root x := by
      apply hpr.frame hagree₁
      intro y hy hmem
      exact hr₁ y (root_mem hy) (List.mem_cons_of_mem _ hmem)
    have hvs₁ (y : Nat) (hy : y ∈ vs ++ postorder l) : y ∈ vs ++ l.inorder := by
      rw [List.mem_append] at hy ⊢
      exact hy.imp_right (postorder_perm l).mem_iff.mp
    have hxs₁ : x ∉ vs ++ postorder l := by
      intro hmem
      rcases List.mem_append.mp (hvs₁ x hmem) with hmem | hmem
      · exact hx.1 hmem
      · exact hxl hmem
    obtain ⟨s₂, hrun₂, hnone₂, hother₂, hP₂, hagree₂⟩ := walk_side hv ihr (s := s₁) (d := true)
      ((hother₁ true (by decide)).trans hcr) hparent₁ hlinked₁ hndr
      (fun y hy => ⟨fun hmem => hr₁ y hy (List.mem_cons_of_mem _ (hvs₁ y hmem)),
        (hfresh y (Or.inr (Or.inr hy))).2⟩) hxr hxs₁ htopr (fun _ => hnone₁) hP₁
    have hxs₂ : x ∉ vs ++ postorder l ++ postorder r := by
      rw [List.mem_append, not_or]
      exact ⟨hxs₁, fun hmem => hxr ((postorder_perm r).mem_iff.mp hmem)⟩
    obtain ⟨s₃, hvisit, hP₃, hagree₃⟩ := hv.visit _ s₂ x hP₂ hxs₂ hx.2
    have hfalse₂ : s₂.links.child false x = none := by
      rw [hother₂ false (by decide), hnone₁]
    have hparent₂ : s₂.links.parent x = s.links.parent x := by
      rw [hagree₂.parent, hagree₁.parent]
      · rw [List.mem_append, not_or]
        exact ⟨hx.1, hxl⟩
      · rw [List.mem_append, not_or]
        exact ⟨hxs₁, hxr⟩
    refine ⟨s₃, ?_, ?_, ?_⟩
    · intro fuel
      have hsplit : fuel + (2 * (node l x r).inorder.length - 1) =
          fuel + 1 + 2 * r.inorder.length + 2 * l.inorder.length := by
        simp only [inorder, List.length_append, List.length_cons]
        omega
      rw [hsplit, hrun₁, hrun₂, purgeWalk, hfalse₂, hnone₂]
      dsimp only
      rw [hvisit, hparent₂]
      rfl
    · simpa [postorder, List.append_assoc] using hP₃
    · apply ((hagree₁.trans hagree₂).trans hagree₃).mono
      · intro y hy
        simp only [List.mem_append, List.mem_cons, inorder, (postorder_perm l).mem_iff,
          (postorder_perm r).mem_iff] at hy ⊢
        tauto
      · intro y hy
        simp only [List.mem_append, List.mem_cons, inorder, (postorder_perm l).mem_iff,
          (postorder_perm r).mem_iff] at hy ⊢
        tauto

/-- The walk from the root. -/
theorem purgeWalk_spec (hv : Visits visit A P) {s : State} {root : Nat} {t : BinTree Nat}
    (hlinked : s.links.Linked t) (hnodup : t.inorder.Nodup) (hroot : t.root = some root)
    (hall : ∀ y ∈ t.inorder, A y) (hP : P [] s) {fuel : Nat}
    (hfuel : 2 * t.inorder.length ≤ fuel) :
    ∃ s', purgeWalk visit root fuel (some root) s = some s' ∧ P (postorder t) s' := by
  obtain ⟨s', hrun, hP', -⟩ := walk_tree hv t root hroot [] s hlinked hnodup
    (fun y hy => ⟨List.not_mem_nil, hall y hy⟩) (fun _ => rfl) hP
  have hpos := List.length_pos_of_mem (root_mem hroot)
  obtain ⟨k, rfl⟩ : ∃ k, fuel = k + 1 + (2 * t.inorder.length - 1) :=
    ⟨fuel - 2 * t.inorder.length, by omega⟩
  refine ⟨s', ?_, hP'⟩
  rw [hrun, if_pos rfl, purgeWalk]

/-! ### `Empty` -/

variable {T : Target} {s s' : State} {ids : List Nat}

theorem Agree.same {K M : List Nat} {h k : Links Nat} (heq : k = h) : Agree K M h k := by
  subst heq
  exact ⟨fun _ _ _ => rfl, fun _ _ => rfl⟩

/-- The nodes visited are freed, and nothing else changes but the links. -/
def Emptying (s₀ : State) (vs : List Nat) (s : State) : Prop :=
  s.freed.Perm (vs ++ s₀.freed) ∧ s.allocated = s₀.allocated ∧ s.mallocs = s₀.mallocs ∧
    s.m_MaxSize = s₀.m_MaxSize ∧ s.m_UserSize = s₀.m_UserSize

theorem emptyVisit_visits (s₀ : State) :
    Visits emptyVisit (fun _ => True) (Emptying s₀) where
  visit vs s x hP _ _ := by
    obtain ⟨hfreed, hallocated, hmallocs, hmax, huser⟩ := hP
    refine ⟨s.addFreed x, rfl, ⟨?_, by simpa, by simpa, by simpa, by simpa⟩, Agree.same (by simp)⟩
    rw [State.addFreed_freed, List.append_assoc]
    exact (hfreed.cons x).trans List.perm_middle.symm
  cut vs s x d hP _ := by
    simpa [Emptying] using hP

theorem Holds.nil_of_root (hs : Holds s ids) (hroot : s.m_Root = none) : ids = [] := by
  obtain ⟨t, htree, rfl⟩ := hs.tree
  rw [root_eq_none (htree.root_eq.trans hroot)]
  rfl

/-- Every node is freed once, unless the cache is held. -/
theorem Empty_spec (hi : Inv T s ids) : ∃ s' ids', Empty s = some s' ∧ Inv T s' ids' ∧
    (s.m_PurgeOverride = false → ids' = []) ∧ (ids' = [] ∨ contents s' ids' = contents s ids) := by
  have hmisses : Inv T (s.setMisses 0) ids := by
    obtain ⟨hs, hl, hcount, hsized⟩ := hi
    refine ⟨hs.congr (by simp) (by simp) (by simp), hl.congr (by simp) (by simp), by simpa, ?_⟩
    rw [cost_congr T (s := s) (by simp)]
    exact hsized.congr (by simp) (by simp) (by simp)
  unfold Empty
  dsimp only
  rw [State.setMisses_m_Root]
  cases hroot : s.m_Root with
  | none =>
    refine ⟨_, ids, rfl, hmisses, fun _ => hi.holds.nil_of_root hroot, Or.inr ?_⟩
    unfold contents
    rw [State.setMisses_entry]
  | some root =>
    dsimp only
    by_cases hheld : (s.setMisses 0).m_PurgeOverride = true
    · rw [if_pos hheld]
      refine ⟨_, ids, rfl, hmisses, ?_, Or.inr ?_⟩
      · intro hfree
        rw [State.setMisses_m_PurgeOverride, hfree] at hheld
        cases hheld
      · unfold contents
        rw [State.setMisses_entry]
    · rw [if_neg hheld]
      obtain ⟨t, htree, hinorder⟩ := hmisses.holds.tree
      have hnodup := hi.holds.nodup
      rw [← hinorder] at hnodup
      have hlen := hmisses.ledger.length_le
      rw [← hinorder] at hlen
      obtain ⟨s', hrun, hP⟩ := purgeWalk_spec (emptyVisit_visits (s.setMisses 0))
        htree.at_root.tree hnodup
        (by rw [htree.root_eq, State.setMisses_m_Root, hroot]) (fun _ _ => trivial)
        ⟨List.Perm.refl _, rfl, rfl, rfl, rfl⟩ (Nat.mul_le_mul_left 2 hlen)
      obtain ⟨hfreed, hallocated, hmallocs, hmax, huser⟩ := hP
      rw [hrun, Option.map_some]
      refine ⟨_, [], rfl, ⟨⟨⟨leaf, ⟨⟨trivial, ?_, List.nodup_nil⟩, ?_⟩, rfl⟩, ?_, ?_⟩, ?_, ?_, ?_⟩,
        fun _ => rfl, Or.inl rfl⟩
      · intro y hy
        cases hy
      · simp [BinTree.root]
      · intro x hx
        cases hx
      · exact List.Pairwise.nil
      · unfold Ledger
        rw [List.nil_append]
        simp only [State.setTree_freed, State.setTree_allocated, State.setCount_freed,
          State.setCount_allocated, State.setSize_freed, State.setSize_allocated]
        rw [hallocated]
        refine hfreed.trans (((postorder_perm t).append_right _).trans ?_)
        rw [hinorder]
        exact hmisses.ledger
      · simp
      · have hmaxle := hmisses.sized.max_le
        constructor <;> simp [cost, hmax, huser]
        simpa using hmaxle

/-! ### `PurgeType` -/

/-- The nodes visited and kept are in a new tree; the others are still on the books. -/
structure Purging (T : Target) (type : Nat) (s₀ : State) (ids vs : List Nat) (s : State) :
    Prop where
  state : ∃ kept rest, (vs ++ rest).Perm ids ∧
    kept.Perm (vs.filter fun x => !purges T type (s₀.entry x)) ∧ Holds s kept ∧
    Ledger s (rest ++ kept) ∧ s.m_NodeCount = (rest ++ kept).length ∧
    Sized T s (cost T s₀ (rest ++ kept))
  entry : s.entry = s₀.entry

theorem Holds.cut {x : Nat} (hs : Holds s ids) (hx : x ∉ ids) (d : Bool) :
    Holds (s.setTree (setChild s.links d x none) s.m_Root) ids := by
  obtain ⟨⟨t, htree, hinorder⟩, hvalid, hapart⟩ := hs
  have hnodup := htree.at_root.nodup
  rw [← hinorder] at hx
  refine ⟨⟨t, ⟨⟨?_, ?_, hnodup⟩, htree.root_eq⟩, hinorder⟩, by simpa, ?_⟩
  · apply htree.at_root.tree.frame (setChild_agree s.links d x none)
    · simpa [nodes] using hnodup
    · intro y hy hmem
      exact hx (List.mem_singleton.mp hmem ▸ hy)
    · intro _ _ _
      exact List.not_mem_nil
  · exact htree.at_root.around
  · unfold Before
    rw [State.setTree_entry]
    exact hapart

/-- Two nodes of a cache have disjoint ranges. -/
theorem Holds.before_or (hs : Holds s ids) {x y : Nat} (hx : x ∈ ids) (hy : y ∈ ids)
    (hne : x ≠ y) : Before s x y ∨ Before s y x := by
  have hsymm : Std.Symm (fun x y => Before s x y ∨ Before s y x) := ⟨fun _ _ h => h.symm⟩
  have heither : ids.Pairwise (fun x y => Before s x y ∨ Before s y x) := hs.apart.imp Or.inl
  exact heither.forall hx hy hne

theorem cost_append (T : Target) (s : State) (xs ys : List Nat) :
    cost T s (xs ++ ys) = cost T s xs + cost T s ys := by
  simp [cost]

theorem cost_perm (T : Target) (s : State) {xs ys : List Nat} (h : xs.Perm ys) :
    cost T s xs = cost T s ys :=
  (h.map _).sum_eq

theorem purgeVisit_visits (hs₀ : Holds s ids) (hlen : ids.length < 2 ^ 32) (type : Nat) :
    Visits (purgeVisit T type) (· ∈ ids) (Purging T type s ids) where
  cut vs s' x d hP hx := by
    obtain ⟨⟨kept, rest, hall, hkept, hs, hl, hcount, hsized⟩, hentry⟩ := hP
    have hxk : x ∉ kept := by
      intro hmem
      exact hx (List.mem_of_mem_filter (hkept.mem_iff.mp hmem))
    exact ⟨⟨kept, rest, hall, hkept, hs.cut hxk d, hl.congr (by simp) (by simp), hcount,
      hsized.congr (by simp) (by simp) (by simp)⟩, by simpa⟩
  visit vs s' x hP hx hmem := by
    obtain ⟨⟨kept, rest, hall, hkept, hs, hl, hcount, hsized⟩, hentry⟩ := hP
    have hrest : x ∈ rest := (List.mem_append.mp (hall.mem_iff.mpr hmem)).resolve_left hx
    have hperm := List.perm_cons_erase hrest
    generalize rest.erase x = rest' at hperm
    have hbooks : (rest ++ kept).Perm (x :: (rest' ++ kept)) := hperm.append_right kept
    have hall' : (vs ++ [x] ++ rest').Perm ids := by
      rw [List.append_assoc]
      exact (hperm.symm.append_left vs).trans hall
    have hlength := hbooks.length_eq
    have htotal := hall.length_eq
    have hkeptle := hkept.length_eq ▸ List.length_filter_le _ vs
    simp only [List.length_append, List.length_cons] at hlength htotal hcount
    have hless : ulongSub s'.m_NodeCount 1 = (rest' ++ kept).length := by
      rw [List.length_append, hcount, ulongSub_of_le (by omega) (by omega)]
      omega
    have hsized' : Sized T (s'.setCount (ulongSub s'.m_NodeCount 1))
        (cost T s (rest' ++ kept) + (s.entry x).cost T) := by
      have hcost : cost T s (rest ++ kept) = cost T s (rest' ++ kept) + (s.entry x).cost T := by
        rw [cost_perm T s hbooks, Nat.add_comm]
        simp [cost]
      rw [← hcost]
      exact hsized.congr (by simp) (by simp) (by simp)
    have hl' : Ledger (s'.setCount (ulongSub s'.m_NodeCount 1)) (x :: (rest' ++ kept)) :=
      (hl.perm hbooks.symm).congr (by simp) (by simp)
    -- the node is freed
    have hdrop (s₂ : State) (hpurge : purges T type (s.entry x) = true)
        (hsame : SameNodes (s'.setCount (ulongSub s'.m_NodeCount 1)) s₂)
        (hl₂ : Ledger s₂ (rest' ++ kept)) (hsized₂ : Sized T s₂ (cost T s (rest' ++ kept))) :
        Purging T type s ids (vs ++ [x]) s₂ ∧ Agree (vs ++ [x]) (vs ++ [x]) s'.links s₂.links := by
      refine ⟨⟨⟨kept, rest', hall', ?_, ?_, hl₂, ?_, hsized₂⟩, ?_⟩, Agree.same ?_⟩
      · rw [List.filter_append, List.filter_singleton, hpurge]
        simpa using hkept
      · exact hs.congr (by simp [hsame.links]) (by simp [hsame.m_Root]) (by simp [hsame.entry])
      · rw [hsame.m_NodeCount, State.setCount_m_NodeCount, hless]
      · rw [hsame.entry, State.setCount_entry, hentry]
      · rw [hsame.links, State.setCount_links]
    unfold purgeVisit
    rw [hentry]
    cases herror : (s.entry x).isError with
    | true =>
      dsimp only
      rw [if_pos herror]
      refine ⟨_, rfl, hdrop _ ?_ (SameNodes.freeNode T _ x) ?_ ((hsized'.drop x).1 herror)⟩
      · simp [purges, herror]
      · exact hl'.free (by simp [freeNode, Free]) (by simp [freeNode, Free])
    | false =>
      dsimp only
      rw [if_neg (by simp [herror])]
      by_cases hlow : type = 1 ∧ (s.entry x).Offset < T.m_SystemRangeStart
      · rw [if_pos hlow]
        refine ⟨_, rfl, hdrop _ ?_ ((SameNodes.free _ _).trans (SameNodes.freeNode T _ x)) ?_
          ((hsized'.drop x).2 herror)⟩
        · simp [purges, hlow]
        · exact hl'.free (by simp [freeNode, Free]) (by simp [freeNode, Free])
      · rw [if_neg hlow]
        have hkeep : purges T type (s.entry x) = false := by
          simpa [purges, herror] using hlow
        have hvs (y : Nat) (hy : y ∈ kept) : y ∈ vs :=
          List.mem_of_mem_filter (hkept.mem_iff.mp hy)
        have hroom := hl'.length_le
        simp only [List.length_cons, List.length_append] at hroom
        obtain ⟨h, root, before, after, hrun, hsplit, hs', hwithin⟩ :=
          InsertNode_spec (s := s'.setCount (ulongSub s'.m_NodeCount 1))
            (hs.congr (by simp) (by simp) (by simp)) (fun hmem => hx (hvs x hmem)) (by omega)
            (by rw [State.setCount_entry, hentry]; exact hs₀.valid x hmem) (by
              intro y hy
              unfold Before
              rw [State.setCount_entry, hentry]
              apply hs₀.before_or (hall.mem_iff.mp (List.mem_append_left _ (hvs y hy))) hmem
              rintro rfl
              exact hx (hvs y hy))
        have hnew : (before ++ x :: after).Perm (x :: kept) := by
          rw [hsplit]
          exact List.perm_middle
        have hnew' : (rest' ++ (before ++ x :: after)).Perm (x :: (rest' ++ kept)) :=
          (hnew.append_left rest').trans List.perm_middle
        refine ⟨_, hrun, ⟨⟨before ++ x :: after, rest', hall', ?_, ?_, ?_, ?_, ?_⟩, ?_⟩, ?_, ?_⟩
        · rw [List.filter_append, List.filter_singleton, hkeep]
          exact hnew.trans ((hkept.cons x).trans (List.perm_append_singleton x _).symm)
        · exact hs'.congr (by simp) (by simp) (by simp)
        · exact (hl'.perm hnew').congr (by simp) (by simp)
        · rw [State.setTree_m_NodeCount, State.setCount_m_NodeCount, State.setCount_m_NodeCount,
            hless, hnew'.length_eq, List.length_cons]
          apply ulong_of_lt
          rw [List.length_append]
          omega
        · rw [cost_perm T s hnew']
          have hcost : cost T s (x :: (rest' ++ kept)) =
              cost T s (rest' ++ kept) + (s.entry x).cost T := by
            rw [Nat.add_comm]
            simp [cost]
          rw [hcost]
          exact hsized'.congr (by simp) (by simp) (by simp)
        · simpa
        · intro y hy d
          rw [State.setTree_links, hwithin.child, State.setCount_links]
          intro hmem
          apply hy
          rw [List.mem_append, List.mem_singleton]
          rcases List.mem_cons.mp hmem with rfl | hmem
          · exact Or.inr rfl
          · exact Or.inl (hvs y hmem)
        · intro y hy
          rw [State.setTree_links, hwithin.parent, State.setCount_links]
          intro hmem
          apply hy
          rw [List.mem_append, List.mem_singleton]
          rcases List.mem_cons.mp hmem with rfl | hmem
          · exact Or.inr rfl
          · exact Or.inl (hvs y hmem)

/-- Nodes in order are determined by their set. -/
theorem Holds.eq_of_perm {xs ys : List Nat} (hx : xs.Pairwise (Before s))
    (hy : ys.Pairwise (Before s)) (hvalid : ∀ x ∈ xs, (s.entry x).Valid) (hperm : xs.Perm ys) :
    xs = ys := by
  apply hperm.eq_of_pairwise _ hx hy
  intro x y hxs hys hxy hyx
  have := (hvalid x hxs).offset_lt
  have := (hvalid y (hperm.mem_iff.mpr hys)).offset_lt
  unfold Before at hxy hyx
  omega

/-- `PurgeType` keeps the nodes that are neither errors nor, for type 1, user mode entries. -/
theorem PurgeType_spec (hi : Inv T s ids) (type : Nat) :
    ∃ s', PurgeType T s type = some s' ∧
      Inv T s' (ids.filter fun x => !purges T type (s.entry x)) ∧ s'.entry = s.entry := by
  unfold PurgeType
  cases hroot : s.m_Root with
  | none =>
    have hnil := hi.holds.nil_of_root hroot
    subst hnil
    exact ⟨s, rfl, hi, rfl⟩
  | some root =>
    obtain ⟨t, htree, hinorder⟩ := hi.holds.tree
    have hnodup := hi.holds.nodup
    have hlen := hi.ledger.length_le
    rw [← hinorder] at hnodup hlen
    have hstart : Purging T type s ids [] (s.setTree s.links none) := by
      refine ⟨⟨[], ids, List.Perm.refl _, List.Perm.refl _, ⟨⟨leaf, ⟨⟨trivial, ?_, List.nodup_nil⟩,
        by simp [BinTree.root]⟩, rfl⟩, ?_, List.Pairwise.nil⟩, ?_, ?_, ?_⟩, by simp⟩
      · intro y hy
        cases hy
      · intro x hx
        cases hx
      · rw [List.append_nil]
        exact hi.ledger.congr (by simp) (by simp)
      · rw [List.append_nil]
        simpa using hi.count
      · rw [List.append_nil]
        exact hi.sized.congr (by simp) (by simp) (by simp)
    obtain ⟨s', hrun, hP⟩ := purgeWalk_spec (purgeVisit_visits hi.holds hi.length_lt type)
      (s := s.setTree s.links none) htree.at_root.tree hnodup (htree.root_eq.trans hroot)
      (fun y hy => hinorder ▸ hy) hstart (Nat.mul_le_mul_left 2 hlen)
    obtain ⟨⟨kept, rest, hall, hkept, hs, hl, hcount, hsized⟩, hentry⟩ := hP
    have hpost := postorder_perm t
    rw [hinorder] at hpost
    have hrest : rest = [] := by
      have hlength := hall.length_eq
      rw [List.length_append, hpost.length_eq] at hlength
      exact List.length_eq_zero_iff.mp (by omega)
    subst hrest
    have heq : kept = ids.filter fun x => !purges T type (s.entry x) := by
      apply Holds.eq_of_perm hs.apart _ hs.valid (hkept.trans (hpost.filter _))
      have hfilter := hi.holds.apart.filter fun x => !purges T type (s.entry x)
      unfold Before at hfilter ⊢
      rw [hentry]
      exact hfilter
    rw [List.nil_append] at hl hcount hsized
    refine ⟨s', hrun, ?_, hentry⟩
    rw [← heq]
    exact ⟨hs, hl, hcount, by rwa [cost_congr T hentry]⟩

end SdkTools.MemoryCache
