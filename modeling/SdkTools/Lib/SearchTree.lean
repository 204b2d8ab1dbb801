import Mathlib

/-!
# Search trees with places

An unbalanced binary search tree in which an insertion takes two steps: a search that hands
out a place, and the attachment of a new entry at that place.
-/

namespace SdkTools

set_option autoImplicit false

inductive SearchTree (α β : Type) where
  | nil
  | node (key : α) (entry : β) (left right : SearchTree α β)
  deriving DecidableEq

inductive Turn where
  | left
  | right
  deriving DecidableEq

/-- A node, by the turns that lead to it from the root. -/
abbrev Place := List Turn

namespace SearchTree

variable {α β : Type}

def leaf (key : α) (entry : β) : SearchTree α β := node key entry nil nil

/-- The entries with their keys, from left to right. -/
def entries : SearchTree α β → List (α × β)
  | nil => []
  | node key entry left right => left.entries ++ (key, entry) :: right.entries

/-- The node at a place. -/
def get? : SearchTree α β → Place → Option (α × β)
  | nil, _ => none
  | node key entry _ _, [] => some (key, entry)
  | node _ _ left _, .left :: place => left.get? place
  | node _ _ _ right, .right :: place => right.get? place

/-- Another entry for the node at a place. -/
def set (entry : β) : SearchTree α β → Place → SearchTree α β
  | nil, _ => nil
  | node key _ left right, [] => node key entry left right
  | node key old left right, .left :: place => node key old (left.set entry place) right
  | node key old left right, .right :: place => node key old left (right.set entry place)

attribute [local simp] entries set

theorem map_fst_set (t : SearchTree α β) (new : β) (place : Place) :
    (t.set new place).entries.map Prod.fst = t.entries.map Prod.fst := by
  induction t generalizing place with
  | nil => rfl
  | node k entry left right ihl ihr =>
    match place with
    | [] => simp
    | .left :: place => simp [ihl]
    | .right :: place => simp [ihr]

section Search
variable [LinearOrder α]

/-- Keys go up from left to right: the tree is ordered, and no key occurs twice. -/
def Ordered (t : SearchTree α β) : Prop := t.entries.Pairwise fun x y => x.1 < y.1

def find (key : α) : SearchTree α β → Option β
  | nil => none
  | node k entry left right =>
    if k = key then some entry else if key < k then left.find key else right.find key

/-- Where the search for a key ends: at the key, or at the node it would be attached to. -/
def trail (key : α) : SearchTree α β → Option Place
  | nil => none
  | node k _ left right =>
    if k = key then some []
    else if key < k then some ((left.trail key).elim [] (.left :: ·))
    else some ((right.trail key).elim [] (.right :: ·))

/-- The leg on which a key goes below the node at a place. -/
def turnAt (key : α) (t : SearchTree α β) (place : Place) : Turn :=
  match t.get? place with
  | some (k, _) => if key < k then .left else .right
  | none => .right

/-- A new node on one leg of the node at a place. -/
def attach (key : α) (entry : β) : SearchTree α β → Place → SearchTree α β
  | nil, _ => nil
  | node k old left right, [] =>
    if key < k then node k old (leaf key entry) right else node k old left (leaf key entry)
  | node k old left right, .left :: place => node k old (left.attach key entry place) right
  | node k old left right, .right :: place => node k old left (right.attach key entry place)

attribute [local simp] find trail attach

/-- `place` is the node of the key, and holds `entry`. -/
inductive Found (key : α) (entry : β) : SearchTree α β → Place → Prop where
  | here {left right : SearchTree α β} : Found key entry (node key entry left right) []
  | left {k : α} {old : β} {left right : SearchTree α β} {place : Place} :
      key < k → Found key entry left place →
        Found key entry (node k old left right) (.left :: place)
  | right {k : α} {old : β} {left right : SearchTree α β} {place : Place} :
      k < key → Found key entry right place →
        Found key entry (node k old left right) (.right :: place)

/-- The key is missing, and `place` is the node it belongs under. -/
inductive Missing (key : α) : SearchTree α β → Place → Prop where
  | underLeft {k : α} {old : β} {right : SearchTree α β} :
      key < k → Missing key (node k old nil right) []
  | underRight {k : α} {old : β} {left : SearchTree α β} :
      k < key → Missing key (node k old left nil) []
  | left {k : α} {old : β} {left right : SearchTree α β} {place : Place} :
      key < k → Missing key left place → Missing key (node k old left right) (.left :: place)
  | right {k : α} {old : β} {left right : SearchTree α β} {place : Place} :
      k < key → Missing key right place → Missing key (node k old left right) (.right :: place)

variable {key : α} {t : SearchTree α β}

theorem ordered_node {k : α} {entry : β} {left right : SearchTree α β} :
    (node k entry left right).Ordered ↔ left.Ordered ∧ right.Ordered ∧
      (∀ x ∈ left.entries, x.1 < k) ∧ ∀ x ∈ right.entries, k < x.1 := by
  simp only [Ordered, entries, List.pairwise_append, List.pairwise_cons, List.mem_cons,
    forall_eq_or_imp]
  constructor
  · rintro ⟨hl, ⟨hkr, hr⟩, hlt⟩
    exact ⟨hl, hr, fun x hx => (hlt x hx).1, hkr⟩
  · rintro ⟨hl, hr, hlk, hkr⟩
    exact ⟨hl, ⟨hkr, hr⟩, fun x hx => ⟨hlk x hx, fun y hy => lt_trans (hlk x hx) (hkr y hy)⟩⟩

theorem trail_eq_none : t.trail key = none ↔ t = nil := by
  cases t with
  | nil => simp
  | node k entry left right =>
    simp only [trail, reduceCtorEq, iff_false]
    split_ifs <;> simp

/-- The search ends at the key, or at the node the key belongs under. -/
theorem trail_cases {place : Place} (h : t.trail key = some place) :
    (∃ entry, Found key entry t place) ∨ Missing key t place := by
  induction t generalizing place with
  | nil => cases h
  | node k entry left right ihl ihr =>
    simp only [trail] at h
    rcases lt_trichotomy key k with hlt | rfl | hgt
    · rw [if_neg hlt.ne', if_pos hlt] at h
      cases hl : left.trail key with
      | none =>
        obtain rfl := trail_eq_none.mp hl
        cases h
        exact .inr (.underLeft hlt)
      | some p =>
        rw [hl] at h
        cases h
        exact (ihl hl).imp (fun ⟨e, he⟩ => ⟨e, .left hlt he⟩) (.left hlt)
    · rw [if_pos rfl] at h
      cases h
      exact .inl ⟨entry, .here⟩
    · rw [if_neg hgt.ne, if_neg hgt.le.not_gt] at h
      cases hr : right.trail key with
      | none =>
        obtain rfl := trail_eq_none.mp hr
        cases h
        exact .inr (.underRight hgt)
      | some p =>
        rw [hr] at h
        cases h
        exact (ihr hr).imp (fun ⟨e, he⟩ => ⟨e, .right hgt he⟩) (.right hgt)

theorem find_left {k : α} {entry : β} {left right : SearchTree α β} (h : key < k) :
    (node k entry left right).find key = left.find key := by
  rw [find, if_neg h.ne', if_pos h]

theorem find_right {k : α} {entry : β} {left right : SearchTree α β} (h : k < key) :
    (node k entry left right).find key = right.find key := by
  rw [find, if_neg h.ne, if_neg h.le.not_gt]

theorem find_here {entry : β} {left right : SearchTree α β} :
    (node key entry left right).find key = some entry := if_pos rfl

namespace Found
variable {place : Place} {entry : β}

theorem get? (h : Found key entry t place) : t.get? place = some (key, entry) := by
  induction h with
  | here => rfl
  | left _ _ ih => exact ih
  | right _ _ ih => exact ih

theorem find (h : Found key entry t place) : t.find key = some entry := by
  induction h with
  | here => exact find_here
  | left hlt _ ih => rw [find_left hlt, ih]
  | right hgt _ ih => rw [find_right hgt, ih]

theorem set (h : Found key entry t place) (new : β) : Found key new (t.set new place) place := by
  induction h with
  | here => exact .here
  | left hlt _ ih => exact .left hlt ih
  | right hgt _ ih => exact .right hgt ih

theorem find_set (h : Found key entry t place) (new : β) (other : α) :
    (t.set new place).find other = if other = key then some new else t.find other := by
  induction h with
  | here =>
    simp only [SearchTree.set, SearchTree.find]
    split_ifs <;> simp_all
  | @left k old left right place hlt _ ih =>
    rcases lt_trichotomy other k with ho | rfl | ho
    · rw [SearchTree.set, find_left ho, find_left ho, ih]
    · rw [SearchTree.set, find_here, find_here, if_neg hlt.ne']
    · rw [SearchTree.set, find_right ho, find_right ho, if_neg (hlt.trans ho).ne']
  | @right k old left right place hgt _ ih =>
    rcases lt_trichotomy other k with ho | rfl | ho
    · rw [SearchTree.set, find_left ho, find_left ho, if_neg (ho.trans hgt).ne]
    · rw [SearchTree.set, find_here, find_here, if_neg hgt.ne]
    · rw [SearchTree.set, find_right ho, find_right ho, ih]

end Found

theorem ordered_iff_map : t.Ordered ↔ (t.entries.map Prod.fst).Pairwise (· < ·) :=
  List.pairwise_map.symm

theorem ordered_set {new : β} {place : Place} (h : t.Ordered) : (t.set new place).Ordered := by
  rw [ordered_iff_map, map_fst_set]
  exact ordered_iff_map.mp h

namespace Missing
variable {place : Place}

theorem get? (h : Missing key t place) : ∃ k old, t.get? place = some (k, old) ∧ k ≠ key := by
  induction h with
  | underLeft hlt => exact ⟨_, _, rfl, hlt.ne'⟩
  | underRight hgt => exact ⟨_, _, rfl, hgt.ne⟩
  | left _ _ ih => exact ih
  | right _ _ ih => exact ih

theorem find (h : Missing key t place) : t.find key = none := by
  induction h with
  | underLeft hlt => rw [find_left hlt]; rfl
  | underRight hgt => rw [find_right hgt]; rfl
  | left hlt _ ih => rw [find_left hlt, ih]
  | right hgt _ ih => rw [find_right hgt, ih]

theorem find_leaf (entry : β) (other : α) :
    (leaf key entry).find other = if other = key then some entry else none := by
  simp only [leaf, SearchTree.find, ite_self, eq_comm]

theorem find_attach (h : Missing key t place) (new : β) (other : α) :
    (t.attach key new place).find other = if other = key then some new else t.find other := by
  induction h with
  | @underLeft k old right hlt =>
    rw [attach, if_pos hlt]
    rcases lt_trichotomy other k with ho | rfl | ho
    · rw [find_left ho, find_left ho, find_leaf]; rfl
    · rw [find_here, find_here, if_neg hlt.ne']
    · rw [find_right ho, find_right ho, if_neg (hlt.trans ho).ne']
  | @underRight k old left hgt =>
    rw [attach, if_neg hgt.le.not_gt]
    rcases lt_trichotomy other k with ho | rfl | ho
    · rw [find_left ho, find_left ho, if_neg (ho.trans hgt).ne]
    · rw [find_here, find_here, if_neg hgt.ne]
    · rw [find_right ho, find_right ho, find_leaf]; rfl
  | @left k old left right place hlt _ ih =>
    rcases lt_trichotomy other k with ho | rfl | ho
    · rw [attach, find_left ho, find_left ho, ih]
    · rw [attach, find_here, find_here, if_neg hlt.ne']
    · rw [attach, find_right ho, find_right ho, if_neg (hlt.trans ho).ne']
  | @right k old left right place hgt _ ih =>
    rcases lt_trichotomy other k with ho | rfl | ho
    · rw [attach, find_left ho, find_left ho, if_neg (ho.trans hgt).ne]
    · rw [attach, find_here, find_here, if_neg hgt.ne]
    · rw [attach, find_right ho, find_right ho, ih]

theorem mem_entries_attach (h : Missing key t place) (new : β) (x : α × β) :
    x ∈ (t.attach key new place).entries ↔ x = (key, new) ∨ x ∈ t.entries := by
  induction h with
  | underLeft hlt => simp [hlt, leaf]
  | underRight hgt => simp [hgt.le.not_gt, leaf]; tauto
  | left _ _ ih => simp [ih]; tauto
  | right _ _ ih => simp [ih]; tauto

theorem ordered_attach (h : Missing key t place) (new : β) (hord : t.Ordered) :
    (t.attach key new place).Ordered := by
  induction h with
  | underLeft hlt =>
    rw [attach, if_pos hlt]
    obtain ⟨_, hr, _, hkr⟩ := ordered_node.mp hord
    exact ordered_node.mpr ⟨by simp [leaf, Ordered], hr, by simpa [leaf], hkr⟩
  | underRight hgt =>
    rw [attach, if_neg hgt.le.not_gt]
    obtain ⟨hl, _, hlk, _⟩ := ordered_node.mp hord
    exact ordered_node.mpr ⟨hl, by simp [leaf, Ordered], hlk, by simpa [leaf]⟩
  | left hlt hmissing ih =>
    obtain ⟨hl, hr, hlk, hkr⟩ := ordered_node.mp hord
    refine ordered_node.mpr ⟨ih hl, hr, fun x hx => ?_, hkr⟩
    rcases (mem_entries_attach hmissing new x).mp hx with rfl | hx
    · exact hlt
    · exact hlk x hx
  | right hgt hmissing ih =>
    obtain ⟨hl, hr, hlk, hkr⟩ := ordered_node.mp hord
    refine ordered_node.mpr ⟨hl, ih hr, hlk, fun x hx => ?_⟩
    rcases (mem_entries_attach hmissing new x).mp hx with rfl | hx
    · exact hgt
    · exact hkr x hx

/-- The place of the node that was attached. -/
theorem found_attach (h : Missing key t place) (new : β) :
    Found key new (t.attach key new place) (place ++ [t.turnAt key place]) := by
  induction h with
  | underLeft hlt =>
    simp only [attach, turnAt, SearchTree.get?, if_pos hlt]
    exact .left hlt .here
  | underRight hgt =>
    simp only [attach, turnAt, SearchTree.get?, if_neg hgt.le.not_gt]
    exact .right hgt .here
  | left hlt _ ih => exact .left hlt ih
  | right hgt _ ih => exact .right hgt ih

end Missing

/-- In an ordered tree every entry is found under its key. -/
theorem find_eq_some_iff (h : t.Ordered) {entry : β} :
    t.find key = some entry ↔ (key, entry) ∈ t.entries := by
  induction t with
  | nil => simp
  | node k old left right ihl ihr =>
    obtain ⟨hl, hr, hlk, hkr⟩ := ordered_node.mp h
    have hnl (hk : k ≤ key) : (key, entry) ∉ left.entries := fun hm => hk.not_gt (hlk _ hm)
    have hnr (hk : key ≤ k) : (key, entry) ∉ right.entries := fun hm => hk.not_gt (hkr _ hm)
    simp only [entries, List.mem_append, List.mem_cons, Prod.mk.injEq]
    rcases lt_trichotomy key k with hlt | rfl | hgt
    · rw [find_left hlt, ihl hl]
      simp [hnr hlt.le, hlt.ne]
    · rw [find_here]
      simp [hnl le_rfl, hnr le_rfl, eq_comm]
    · rw [find_right hgt, ihr hr]
      simp [hnl hgt.le, hgt.ne']

end Search
end SearchTree
end SdkTools
