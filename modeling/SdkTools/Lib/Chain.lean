import Mathlib.Data.List.Basic

/-!
# Chains of entries with distinct keys

The operations of a bucket of a hash table: look an entry up, unlink it, change it in
place, put a new one in front. On entries with distinct keys they are those of a
finite map. Nothing here refers to a particular table.
-/

namespace SdkTools.Lib

set_option autoImplicit false

universe u v

variable {ν : Type u} {κ : Type v} [DecidableEq κ] (key : ν → κ)

/-- The first entry with a key. -/
def lookup (k : κ) : List ν → Option ν
  | [] => none
  | e :: es => if key e = k then some e else lookup k es

/-- The chain without its first entry with a key. -/
def unlink (k : κ) : List ν → List ν
  | [] => []
  | e :: es => if key e = k then es else e :: unlink k es

/-- The chain with its first entry with a key changed. -/
def change (k : κ) (f : ν → ν) : List ν → List ν
  | [] => []
  | e :: es => if key e = k then f e :: es else e :: change k f es

/-- No key occurs twice. -/
def Distinct (es : List ν) : Prop := es.Pairwise fun a b => key a ≠ key b

variable {key} {k k' : κ} {es : List ν}

attribute [local simp] lookup unlink change

theorem key_of_lookup {e : ν} (h : lookup key k es = some e) : key e = k := by
  induction es with
  | nil => cases h
  | cons a es ih =>
    rw [lookup] at h
    split at h
    · rename_i ha
      cases h
      exact ha
    · exact ih h

theorem mem_of_lookup {e : ν} (h : lookup key k es = some e) : e ∈ es := by
  induction es with
  | nil => cases h
  | cons a es ih =>
    rw [lookup] at h
    split at h
    · cases h
      exact List.mem_cons_self
    · exact List.mem_cons_of_mem a (ih h)

theorem lookup_eq_none (h : ∀ e ∈ es, key e ≠ k) : lookup key k es = none := by
  induction es with
  | nil => rfl
  | cons a es ih =>
    rw [lookup, if_neg (h a List.mem_cons_self)]
    exact ih fun e he => h e (List.mem_cons_of_mem a he)

theorem ne_of_lookup_none (h : lookup key k es = none) : ∀ e ∈ es, key e ≠ k := by
  induction es with
  | nil => exact nofun
  | cons a es ih =>
    rw [lookup] at h
    split at h
    · cases h
    · rename_i ha
      intro e he
      rcases List.mem_cons.mp he with rfl | he
      · exact ha
      · exact ih h e he

theorem mem_of_mem_unlink {e : ν} (h : e ∈ unlink key k es) : e ∈ es := by
  induction es with
  | nil => exact h
  | cons a es ih =>
    rw [unlink] at h
    split at h
    · exact List.mem_cons_of_mem a h
    · rcases List.mem_cons.mp h with rfl | h
      · exact List.mem_cons_self
      · exact List.mem_cons_of_mem a (ih h)

theorem Distinct.unlink (h : Distinct key es) : Distinct key (unlink key k es) := by
  induction es with
  | nil => exact h
  | cons a es ih =>
    obtain ⟨ha, hes⟩ := List.pairwise_cons.mp h
    rw [Lib.unlink]
    split
    · exact hes
    · exact List.pairwise_cons.mpr ⟨fun b hb => ha b (mem_of_mem_unlink hb), ih hes⟩

theorem lookup_unlink_self (h : Distinct key es) : lookup key k (unlink key k es) = none := by
  induction es with
  | nil => rfl
  | cons a es ih =>
    obtain ⟨ha, hes⟩ := List.pairwise_cons.mp h
    rw [unlink]
    split
    · rename_i hk
      exact lookup_eq_none fun e he heq => ha e he (hk.trans heq.symm)
    · rename_i hk
      rw [lookup, if_neg hk]
      exact ih hes

theorem lookup_unlink_ne (hne : k ≠ k') : lookup key k' (unlink key k es) = lookup key k' es := by
  induction es with
  | nil => rfl
  | cons a es ih =>
    rw [unlink]
    split
    · rename_i hk
      rw [lookup, if_neg fun h => hne (hk.symm.trans h)]
    · simp [ih]

variable {f : ν → ν}

theorem lookup_change_self (hf : ∀ e, key (f e) = key e) :
    lookup key k (change key k f es) = (lookup key k es).map f := by
  induction es with
  | nil => rfl
  | cons a es ih =>
    rw [change, lookup]
    split
    · rename_i hk
      rw [lookup, if_pos ((hf a).trans hk)]
      rfl
    · rename_i hk
      rw [lookup, if_neg hk]
      exact ih

theorem lookup_change_ne (hf : ∀ e, key (f e) = key e) (hne : k ≠ k') :
    lookup key k' (change key k f es) = lookup key k' es := by
  induction es with
  | nil => rfl
  | cons a es ih =>
    rw [change]
    split
    · rename_i hk
      have ha : key a ≠ k' := fun h => hne (hk.symm.trans h)
      rw [lookup, lookup, if_neg ha, if_neg fun h => ha ((hf a).symm.trans h)]
    · rw [lookup, lookup, ih]

theorem map_key_change (hf : ∀ e, key (f e) = key e) :
    (change key k f es).map key = es.map key := by
  induction es with
  | nil => rfl
  | cons a es ih =>
    rw [change]
    split
    · rw [List.map_cons, List.map_cons, hf]
    · rw [List.map_cons, List.map_cons, ih]

theorem Distinct.change (h : Distinct key es) (hf : ∀ e, key (f e) = key e) :
    Distinct key (change key k f es) := by
  have hmap : (es.map key).Pairwise (· ≠ ·) := List.pairwise_map.mpr h
  rw [← map_key_change (k := k) hf] at hmap
  exact List.pairwise_map.mp hmap

theorem Distinct.push {e : ν} (h : Distinct key es) (hnone : lookup key (key e) es = none) :
    Distinct key (e :: es) :=
  List.pairwise_cons.mpr ⟨fun a ha heq => ne_of_lookup_none hnone a ha heq.symm, h⟩

theorem lookup_push_self (e : ν) : lookup key (key e) (e :: es) = some e := by
  rw [lookup, if_pos rfl]

theorem lookup_push_ne {e : ν} (hne : key e ≠ k') :
    lookup key k' (e :: es) = lookup key k' es := by
  rw [lookup, if_neg hne]

end SdkTools.Lib
