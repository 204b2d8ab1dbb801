import Mathlib.Data.List.Induction

/-!
# Operator expressions and precedence

Trees over atoms, prefix operators and infix operators, with the tokens they are
written as. `Grouped` singles out the reading of a token sequence that a table of
precedences assigns to it. A chain of infix operators of one level may be regrouped
from the left to the right (`toRight`) without changing the tokens, and without
changing the value when the operators of the chain associate with each other.
-/

namespace SdkTools.Lib.Operators

set_option autoImplicit false

universe u v w x y z

variable {α : Type u} {κ : Type v} {υ : Type w} {β : Type x} {τ : Type y} {γ : Type z}

inductive Ast (α : Type u) (κ : Type v) (υ : Type w) (β : Type x) where
  | atom (a : α)
  | group (k : κ) (e : Ast α κ υ β)
  | unary (u : υ) (e : Ast α κ υ β)
  | binary (o : β) (l r : Ast α κ υ β)

/-- How the parts of an expression are written. -/
structure Spelling (α : Type u) (κ : Type v) (υ : Type w) (β : Type x) (τ : Type y) where
  atom : α → τ
  unary : υ → τ
  binary : β → τ
  lpar : κ → τ
  rpar : κ → τ

/-- A table of precedences; a larger number binds tighter. -/
structure Levels (υ : Type w) (β : Type x) where
  unary : υ → Nat
  binary : β → Nat
  distinct : ∀ u o, unary u ≠ binary o

namespace Ast

def yield (s : Spelling α κ υ β τ) : Ast α κ υ β → List τ
  | atom a => [s.atom a]
  | group k e => s.lpar k :: (e.yield s ++ [s.rpar k])
  | unary u e => s.unary u :: e.yield s
  | binary o l r => l.yield s ++ s.binary o :: r.yield s

def eval (atomValue : α → γ) (un : υ → γ → γ) (bin : β → γ → γ → γ) : Ast α κ υ β → γ
  | atom a => atomValue a
  | group _ e => e.eval atomValue un bin
  | unary u e => un u (e.eval atomValue un bin)
  | binary o l r => bin o (l.eval atomValue un bin) (r.eval atomValue un bin)

/-- The levels of the operators whose last operand ends the expression. -/
def rightEdge (p : Levels υ β) : Ast α κ υ β → List Nat
  | atom _ => []
  | group _ _ => []
  | unary u e => p.unary u :: e.rightEdge p
  | binary o _ r => p.binary o :: r.rightEdge p

/-- The levels of the operators whose first operand starts the expression. -/
def leftEdge (p : Levels υ β) : Ast α κ υ β → List Nat
  | atom _ => []
  | group _ _ => []
  | unary _ _ => []
  | binary o l _ => p.binary o :: l.leftEdge p

/-- Every operator has exactly the operands that the table gives it, where the
levels in `left` associate to the left and all others to the right. -/
def Grouped (p : Levels υ β) (left : Nat → Bool) : Ast α κ υ β → Prop
  | atom _ => True
  | group _ e => e.Grouped p left
  | unary u e => (∀ q ∈ e.leftEdge p, p.unary u < q) ∧ e.Grouped p left
  | binary o l r =>
    (∀ q ∈ l.rightEdge p, p.binary o < q ∨ p.binary o = q ∧ left q = true) ∧
      (∀ q ∈ r.leftEdge p, p.binary o < q ∨ p.binary o = q ∧ left q = false) ∧
        l.Grouped p left ∧ r.Grouped p left

/-- The reading in which every level associates to the right. -/
abbrev GroupedRight (p : Levels υ β) (e : Ast α κ υ β) : Prop := e.Grouped p fun _ => false

/-- The operators of level `q` in the chain that the expression is. -/
def chain (p : Levels υ β) (q : Nat) : Ast α κ υ β → List β
  | binary o l r => if p.binary o = q then l.chain p q ++ o :: r.chain p q else []
  | _ => []

/-- In every chain of a left-associative level, each operator is related to
all later ones. -/
def ChainsIn (p : Levels υ β) (left : Nat → Bool) (R : β → β → Prop) : Ast α κ υ β → Prop
  | atom _ => True
  | group _ e => e.ChainsIn p left R
  | unary _ e => e.ChainsIn p left R
  | binary o l r =>
    (left (p.binary o) = true → ∀ o' ∈ l.chain p (p.binary o), R o' o) ∧
      l.ChainsIn p left R ∧ r.ChainsIn p left R

/-- Append `o r` to the chain `l`, which is grouped to the right. -/
def attach (p : Levels υ β) (left : Nat → Bool) (o : β) (l r : Ast α κ υ β) : Ast α κ υ β :=
  match l with
  | binary o' l₁ l₂ =>
    if p.binary o' = p.binary o ∧ left (p.binary o) = true then
      binary o' l₁ (attach p left o l₂ r)
    else binary o (binary o' l₁ l₂) r
  | e => binary o e r

/-- Every left-associative chain regrouped to the right. -/
def toRight (p : Levels υ β) (left : Nat → Bool) : Ast α κ υ β → Ast α κ υ β
  | atom a => atom a
  | group k e => group k (e.toRight p left)
  | unary u e => unary u (e.toRight p left)
  | binary o l r => attach p left o (l.toRight p left) (r.toRight p left)

/-! ### Regrouping keeps the tokens and the edges -/

section Regrouping

variable (p : Levels υ β) (left : Nat → Bool)

attribute [local simp] yield attach toRight leftEdge rightEdge chain

theorem yield_attach (s : Spelling α κ υ β τ) (o : β) (l r : Ast α κ υ β) :
    (attach p left o l r).yield s = l.yield s ++ s.binary o :: r.yield s := by
  induction l with
  | binary o' l₁ l₂ _ ih =>
    unfold attach
    split
    · simp [ih, List.append_assoc]
    · rfl
  | _ => rfl

theorem yield_toRight (s : Spelling α κ υ β τ) (e : Ast α κ υ β) :
    (e.toRight p left).yield s = e.yield s := by
  induction e with
  | atom a => rfl
  | group k e ih => simp [ih]
  | unary u e ih => simp [ih]
  | binary o l r ihl ihr => simp [yield_attach, ihl, ihr]

theorem leftEdge_attach (o : β) (l r : Ast α κ υ β) {q : Nat}
    (h : q ∈ (attach p left o l r).leftEdge p) : q = p.binary o ∨ q ∈ l.leftEdge p := by
  cases l with
  | binary o' l₁ l₂ =>
    unfold attach at h
    split at h
    · exact Or.inr h
    · simpa using h
  | _ => simpa using h

theorem rightEdge_attach (o : β) (l r : Ast α κ υ β) {q : Nat}
    (h : q ∈ (attach p left o l r).rightEdge p) : q = p.binary o ∨ q ∈ r.rightEdge p := by
  induction l with
  | binary o' l₁ l₂ _ ih =>
    unfold attach at h
    split at h
    · next hlevel =>
      rcases List.mem_cons.mp h with rfl | h
      · exact Or.inl hlevel.1
      · exact ih h
    · simpa using h
  | _ => simpa using h

theorem leftEdge_toRight (e : Ast α κ υ β) {q : Nat} (h : q ∈ (e.toRight p left).leftEdge p) :
    q ∈ e.leftEdge p := by
  induction e with
  | binary o l r ihl _ =>
    rcases leftEdge_attach p left _ _ _ h with rfl | h
    · exact List.mem_cons_self
    · exact List.mem_cons_of_mem _ (ihl h)
  | _ => simp at h

theorem rightEdge_toRight (e : Ast α κ υ β) {q : Nat} (h : q ∈ (e.toRight p left).rightEdge p) :
    q ∈ e.rightEdge p := by
  induction e with
  | atom a => simp at h
  | group k e _ => simp at h
  | unary u e ih =>
    rcases List.mem_cons.mp h with rfl | h
    · exact List.mem_cons_self
    · exact List.mem_cons_of_mem _ (ih h)
  | binary o l r _ ihr =>
    rcases rightEdge_attach p left _ _ _ h with rfl | h
    · exact List.mem_cons_self
    · exact List.mem_cons_of_mem _ (ihr h)

/-! ### The regrouped tree is the right-associative reading -/

/-- Below an operator that binds tighter than `q`, nothing on the right edge has
level `q` unless a looser prefix operator is there as well. -/
theorem lt_of_mem_rightEdge {e : Ast α κ υ β} {q : Nat} (hg : e.GroupedRight p)
    (hle : ∀ k ∈ e.rightEdge p, q ≤ k) (hun : ∀ u, p.unary u ≠ q)
    (htop : ∀ k ∈ e.leftEdge p, q < k) : ∀ k ∈ e.rightEdge p, q < k := by
  induction e with
  | atom a => simp
  | group k e _ => simp
  | unary u e ih =>
    intro k hk
    have hu : q < p.unary u :=
      Nat.lt_of_le_of_ne (hle _ List.mem_cons_self) fun h => hun u h.symm
    rcases List.mem_cons.mp hk with rfl | hk
    · exact hu
    · exact ih hg.2 (fun k hk => hle k (List.mem_cons_of_mem _ hk))
        (fun k hk => Nat.lt_trans hu (hg.1 k hk)) k hk
  | binary o l r _ ihr =>
    intro k hk
    have ho : q < p.binary o := htop _ List.mem_cons_self
    rcases List.mem_cons.mp hk with rfl | hk
    · exact ho
    · refine ihr hg.2.2.2 (fun k hk => hle k (List.mem_cons_of_mem _ hk)) (fun k hk => ?_) k hk
      rcases hg.2.1 k hk with h | h
      · exact Nat.lt_trans ho h
      · exact h.1 ▸ ho

theorem grouped_attach {o : β} {l r : Ast α κ υ β} (hl : l.GroupedRight p)
    (hr : r.GroupedRight p)
    (hle : ∀ q ∈ l.rightEdge p, p.binary o < q ∨ p.binary o = q ∧ left q = true)
    (hre : ∀ q ∈ r.leftEdge p, p.binary o ≤ q) : (attach p left o l r).GroupedRight p := by
  have hright : ∀ q ∈ r.leftEdge p, p.binary o < q ∨ p.binary o = q ∧ false = false :=
    fun q hq => (Nat.lt_or_eq_of_le (hre q hq)).imp_right fun h => ⟨h, rfl⟩
  induction l with
  | atom a => exact ⟨by simp, hright, hl, hr⟩
  | group k e _ => exact ⟨by simp, hright, hl, hr⟩
  | unary u e _ =>
    have hu : p.binary o < p.unary u := by
      rcases hle _ List.mem_cons_self with h | h
      · exact h
      · exact absurd h.1.symm (p.distinct u o)
    refine ⟨fun q hq => Or.inl ?_, hright, hl, hr⟩
    refine lt_of_mem_rightEdge p hl (fun k hk => ?_) (p.distinct · o) (by simp) q hq
    rcases hle k hk with h | h
    · exact Nat.le_of_lt h
    · exact Nat.le_of_eq h.1
  | binary o' l₁ l₂ _ ih =>
    have hle₂ := fun k hk => hle k (List.mem_cons_of_mem _ hk)
    unfold attach
    split
    · next hlevel =>
      refine ⟨hl.1, fun q hq => ?_, hl.2.2.1, ih hl.2.2.2 hle₂⟩
      rcases leftEdge_attach p left _ _ _ hq with rfl | hq
      · exact Or.inr ⟨hlevel.1, rfl⟩
      · exact hl.2.1 q hq
    · next hlevel =>
      have ho : p.binary o < p.binary o' := by
        rcases hle _ List.mem_cons_self with h | h
        · exact h
        · exact absurd ⟨h.1.symm, h.1 ▸ h.2⟩ hlevel
      refine ⟨fun q hq => Or.inl ?_, hright, hl, hr⟩
      rcases List.mem_cons.mp hq with rfl | hq
      · exact ho
      refine lt_of_mem_rightEdge p hl.2.2.2 (fun k hk => ?_) (p.distinct · o)
        (fun k hk => ?_) q hq
      · rcases hle₂ k hk with h | h
        · exact Nat.le_of_lt h
        · exact Nat.le_of_eq h.1
      · rcases hl.2.1 k hk with h | h
        · exact Nat.lt_trans ho h
        · exact h.1 ▸ ho

theorem grouped_toRight {e : Ast α κ υ β} (h : e.Grouped p left) :
    (e.toRight p left).GroupedRight p := by
  induction e with
  | atom a => trivial
  | group k e ih => exact ih h
  | unary u e ih => exact ⟨fun q hq => h.1 q (leftEdge_toRight p left e hq), ih h.2⟩
  | binary o l r ihl ihr =>
    refine grouped_attach p left (ihl h.2.2.1) (ihr h.2.2.2)
      (fun q hq => h.1 q (rightEdge_toRight p left l hq)) fun q hq => ?_
    rcases h.2.1 q (leftEdge_toRight p left r hq) with h | h
    · exact Nat.le_of_lt h
    · exact Nat.le_of_eq h.1

/-! ### Values -/

theorem chain_attach {o o' : β} {l r : Ast α κ υ β} {q : Nat}
    (h : o' ∈ (attach p left o l r).chain p q) :
    p.binary o = q ∧ (o' ∈ l.chain p q ∨ o' = o ∨ o' ∈ r.chain p q) := by
  induction l with
  | binary o₁ l₁ l₂ _ ih =>
    unfold attach at h
    split at h
    · next hlevel =>
      by_cases ho : p.binary o₁ = q
      · refine ⟨hlevel.1 ▸ ho, ?_⟩
        simp only [chain, if_pos ho, List.mem_append, List.mem_cons] at h ⊢
        rcases h with h | h | h
        · exact Or.inl (Or.inl h)
        · exact Or.inl (Or.inr (Or.inl h))
        · exact (ih h).2.imp_left fun h => Or.inr (Or.inr h)
      · simp [chain, ho] at h
    · by_cases ho : p.binary o = q
      · rw [chain, if_pos ho] at h
        exact ⟨ho, (List.mem_append.mp h).imp_right List.mem_cons.mp⟩
      · simp [chain, ho] at h
  | _ =>
    by_cases ho : p.binary o = q
    · exact ⟨ho, Or.inr (by simpa [ho] using h)⟩
    · simp [ho] at h

theorem chain_toRight (e : Ast α κ υ β) {o : β} {q : Nat} (h : o ∈ (e.toRight p left).chain p q) :
    o ∈ e.chain p q := by
  induction e with
  | binary o' l r ihl ihr =>
    obtain ⟨ho, h⟩ := chain_attach p left h
    rw [chain, if_pos ho]
    refine List.mem_append.mpr (h.imp ihl fun h => ?_)
    exact List.mem_cons.mpr (h.imp_right ihr)
  | _ => simp at h

variable (atomValue : α → γ) (un : υ → γ → γ) (bin : β → γ → γ → γ)

/-- `o₁` and `o₂` may be applied in either order. -/
def Regroups (o₁ o₂ : β) : Prop := ∀ a b c, bin o₂ (bin o₁ a b) c = bin o₁ a (bin o₂ b c)

theorem ChainsIn.mono {p : Levels υ β} {left : Nat → Bool} {R S : β → β → Prop} {e : Ast α κ υ β}
    (h : e.ChainsIn p left R) (hRS : ∀ o₁ o₂, R o₁ o₂ → S o₁ o₂) : e.ChainsIn p left S := by
  induction e with
  | atom a => trivial
  | group k e ih => exact ih h
  | unary u e ih => exact ih h
  | binary o l r ihl ihr =>
    exact ⟨fun hleft o' ho' => hRS _ _ (h.1 hleft o' ho'), ihl h.2.1, ihr h.2.2⟩

theorem eval_attach {o : β} {l r : Ast α κ υ β}
    (h : left (p.binary o) = true → ∀ o' ∈ l.chain p (p.binary o), Regroups bin o' o) :
    (attach p left o l r).eval atomValue un bin =
      bin o (l.eval atomValue un bin) (r.eval atomValue un bin) := by
  induction l with
  | binary o' l₁ l₂ _ ih =>
    unfold attach
    split
    · next hlevel =>
      rw [chain, if_pos hlevel.1] at h
      have hl₂ := ih fun hleft k hk => h hleft k
        (List.mem_append_right _ (List.mem_cons_of_mem _ hk))
      have ho' := h hlevel.2 o' (List.mem_append_right _ List.mem_cons_self)
      simp only [eval, hl₂]
      exact (ho' _ _ _).symm
    · rfl
  | _ => rfl

theorem eval_toRight {e : Ast α κ υ β} (h : e.ChainsIn p left (Regroups bin)) :
    (e.toRight p left).eval atomValue un bin = e.eval atomValue un bin := by
  induction e with
  | atom a => rfl
  | group k e ih => exact ih h
  | unary u e ih => simp only [toRight, eval, ih h]
  | binary o l r ihl ihr =>
    simp only [eval, ← ihl h.2.1, ← ihr h.2.2]
    exact eval_attach p left atomValue un bin fun hleft o' ho' =>
      h.1 hleft o' (chain_toRight p left l ho')

end Regrouping

/-! ### Left-associative chains

When every prefix operator binds tighter than level `k`, a tree whose outer operators
have level at least `k` is a chain of level `k` over trees that bind tighter.
-/

/-- The chain that starts with `e` and goes on with the operators and operands of `l`. -/
def joinLeft (e : Ast α κ υ β) (l : List (β × Ast α κ υ β)) : Ast α κ υ β :=
  l.foldl (fun acc x => binary x.1 acc x.2) e

/-- The tokens of the operators and operands of a chain. -/
def yieldChain (s : Spelling α κ υ β τ) (l : List (β × Ast α κ υ β)) : List τ :=
  l.flatMap fun x => s.binary x.1 :: x.2.yield s

/-- A link of a chain of level `k`. -/
def IsLink (p : Levels υ β) (k : Nat) (x : β × Ast α κ υ β) : Prop :=
  p.binary x.1 = k ∧ x.2.Grouped p (fun _ => true) ∧ ∀ q ∈ x.2.leftEdge p, k < q

section Chains

variable (p : Levels υ β)

theorem joinLeft_concat (e : Ast α κ υ β) (l : List (β × Ast α κ υ β)) (o : β)
    (r : Ast α κ υ β) : joinLeft e (l ++ [(o, r)]) = binary o (joinLeft e l) r := by
  simp [joinLeft, List.foldl_append]

theorem yield_joinLeft (s : Spelling α κ υ β τ) (e : Ast α κ υ β)
    (l : List (β × Ast α κ υ β)) : (joinLeft e l).yield s = e.yield s ++ yieldChain s l := by
  induction l generalizing e with
  | nil => simp [joinLeft, yieldChain]
  | cons x l ih =>
    have h := ih (binary x.1 e x.2)
    simp only [joinLeft, List.foldl_cons] at h ⊢
    rw [h]
    simp [yield, yieldChain, List.append_assoc]

theorem eval_joinLeft (atomValue : α → γ) (un : υ → γ → γ) (bin : β → γ → γ → γ)
    (e : Ast α κ υ β) (l : List (β × Ast α κ υ β)) :
    (joinLeft e l).eval atomValue un bin =
      l.foldl (fun acc x => bin x.1 acc (x.2.eval atomValue un bin))
        (e.eval atomValue un bin) := by
  induction l generalizing e with
  | nil => rfl
  | cons x l ih => exact ih (binary x.1 e x.2)

theorem lt_rightEdge {e : Ast α κ υ β} {k : Nat} (hg : e.Grouped p fun _ => true)
    (hun : ∀ u, k < p.unary u) (htop : ∀ q ∈ e.leftEdge p, k < q) :
    ∀ q ∈ e.rightEdge p, k < q := by
  induction e with
  | atom a => simp [rightEdge]
  | group g e _ => simp [rightEdge]
  | unary u e ih =>
    intro q hq
    rcases List.mem_cons.mp hq with rfl | hq
    · exact hun u
    · exact ih hg.2 (fun q hq => Nat.lt_trans (hun u) (hg.1 q hq)) q hq
  | binary o l r _ ihr =>
    intro q hq
    have ho : k < p.binary o := htop _ List.mem_cons_self
    rcases List.mem_cons.mp hq with rfl | hq
    · exact ho
    · refine ihr hg.2.2.2 (fun q hq => ?_) q hq
      rcases hg.2.1 q hq with h | h
      · exact Nat.lt_trans ho h
      · cases h.2

theorem le_leftEdge {o : β} {l r : Ast α κ υ β}
    (hg : (binary o l r).Grouped p fun _ => true) : ∀ q ∈ l.leftEdge p, p.binary o ≤ q := by
  induction l generalizing o r with
  | binary o' l₁ l₂ ih _ =>
    intro q hq
    have ho : p.binary o ≤ p.binary o' := by
      rcases hg.1 _ List.mem_cons_self with h | h
      · exact Nat.le_of_lt h
      · exact Nat.le_of_eq h.1
    rcases List.mem_cons.mp hq with rfl | hq
    · exact ho
    · exact Nat.le_trans ho (ih hg.2.2.1 q hq)
  | _ => simp [leftEdge]

theorem grouped_joinLeft {e : Ast α κ υ β} {k : Nat} {l : List (β × Ast α κ υ β)}
    (hun : ∀ u, k < p.unary u) (hg : e.Grouped p fun _ => true)
    (htop : ∀ q ∈ e.leftEdge p, k < q) (hl : ∀ x ∈ l, IsLink p k x) :
    (joinLeft e l).Grouped p (fun _ => true) ∧
      (∀ q ∈ (joinLeft e l).leftEdge p, k ≤ q) ∧
      ∀ q ∈ (joinLeft e l).rightEdge p, k ≤ q := by
  induction l using List.reverseRecOn with
  | nil =>
    exact ⟨hg, fun q hq => Nat.le_of_lt (htop q hq),
      fun q hq => Nat.le_of_lt (lt_rightEdge p hg hun htop q hq)⟩
  | append_singleton l x ih =>
    obtain ⟨o, r⟩ := x
    obtain ⟨hjoin, hleft, hright⟩ := ih fun x hx => hl x (List.mem_append_left _ hx)
    obtain ⟨ho, hr, hrtop⟩ := hl (o, r) (List.mem_append_right _ List.mem_cons_self)
    dsimp only at ho hr hrtop
    rw [joinLeft_concat]
    refine ⟨⟨fun q hq => ?_, fun q hq => Or.inl (ho ▸ hrtop q hq), hjoin, hr⟩,
      fun q hq => ?_, fun q hq => ?_⟩
    · exact (Nat.lt_or_eq_of_le (ho ▸ hright q hq)).imp_right fun h => ⟨h, rfl⟩
    · rcases List.mem_cons.mp hq with rfl | hq
      · exact Nat.le_of_eq ho.symm
      · exact hleft q hq
    · rcases List.mem_cons.mp hq with rfl | hq
      · exact Nat.le_of_eq ho.symm
      · exact Nat.le_of_lt (lt_rightEdge p hr hun hrtop q hq)

theorem exists_joinLeft {e : Ast α κ υ β} {k : Nat} (hg : e.Grouped p fun _ => true)
    (htop : ∀ q ∈ e.leftEdge p, k ≤ q) :
    ∃ e₀ l, e = joinLeft e₀ l ∧ e₀.Grouped p (fun _ => true) ∧
      (∀ q ∈ e₀.leftEdge p, k < q) ∧ ∀ x ∈ l, IsLink p k x := by
  induction e with
  | binary o l r ihl _ =>
    rcases Nat.lt_or_eq_of_le (htop _ List.mem_cons_self) with ho | ho
    · refine ⟨binary o l r, [], rfl, hg, fun q hq => ?_, List.forall_mem_nil _⟩
      rcases List.mem_cons.mp hq with rfl | hq
      · exact ho
      · exact Nat.lt_of_lt_of_le ho (le_leftEdge p hg q hq)
    · obtain ⟨e₀, links, rfl, hg₀, htop₀, hlinks⟩ :=
        ihl hg.2.2.1 fun q hq => htop q (List.mem_cons_of_mem _ hq)
      refine ⟨e₀, links ++ [(o, r)], (joinLeft_concat e₀ links o r).symm, hg₀, htop₀, ?_⟩
      intro x hx
      rcases List.mem_append.mp hx with hx | hx
      · exact hlinks x hx
      · rcases List.mem_singleton.mp hx
        refine ⟨ho.symm, hg.2.2.2, fun q hq => ?_⟩
        rcases hg.2.1 q hq with h | h
        · exact Nat.lt_of_le_of_lt (Nat.le_of_eq ho) h
        · cases h.2
  | _ => exact ⟨_, [], rfl, hg, by simp [leftEdge], List.forall_mem_nil _⟩

end Chains

end Ast

end SdkTools.Lib.Operators
